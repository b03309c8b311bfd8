import TapeAir.Proofs.Machine.Simulation
/-! # Compiled programs keep to their instructions

The instructions of a source lie one behind the other in the compiled program, a bracket with its
operand. Operands are cells like others, and one may happen to be the code of an instruction. But
each of them holds the address of an instruction or the end of the program. So from the first
instruction the machine comes to instructions only, and at last to the end.
-/
namespace TapeAir

namespace Instruction

def width : Instruction → ℕ
  | .loopStart => 2
  | .loopEnd => 2
  | _ => 1

theorem width_pos (i : Instruction) : 0 < i.width := by
  cases i <;> decide

theorem width_action (a : Action) : a.instruction.width = 1 := by
  cases a <;> rfl

def extent (is : List Instruction) : ℕ := (is.map width).sum

theorem extent_cons (i : Instruction) (is : List Instruction) :
    extent (i :: is) = i.width + extent is := List.sum_cons

theorem extent_append (is js : List Instruction) : extent (is ++ js) = extent is + extent js := by
  rw [extent, List.map_append, List.sum_append]
  rfl

def layout : ℕ → List Instruction → List (ℕ × Instruction)
  | _, [] => []
  | a, i :: is => (a, i) :: layout (a + i.width) is

def stops : ℕ → List Instruction → List ℕ
  | a, [] => [a]
  | a, i :: is => a :: stops (a + i.width) is

variable {a x : ℕ} {i : Instruction} {is js : List Instruction}

theorem layout_append (a : ℕ) (is js : List Instruction) :
    layout a (is ++ js) = layout a is ++ layout (a + extent is) js := by
  induction is generalizing a with
  | nil => rfl
  | cons i is ih =>
    rw [List.cons_append, layout, ih, layout, extent_cons, Nat.add_assoc, List.cons_append]

theorem self_mem_stops (a : ℕ) (is : List Instruction) : a ∈ stops a is := by
  cases is with
  | nil => exact List.mem_singleton_self a
  | cons i is => exact List.mem_cons_self

theorem mem_stops_append :
    x ∈ stops a (is ++ js) ↔ x ∈ stops a is ∨ x ∈ stops (a + extent is) js := by
  induction is generalizing a with
  | nil =>
    refine ⟨.inr, fun h => h.elim (fun hx => ?_) id⟩
    exact List.mem_singleton.mp hx ▸ self_mem_stops a js
  | cons i is ih =>
    rw [List.cons_append, stops, List.mem_cons, ih, stops, List.mem_cons, or_assoc, extent_cons,
      Nat.add_assoc]

theorem mem_stops_iff :
    x ∈ stops a is ↔ x = a + extent is ∨ ∃ i, (x, i) ∈ layout a is := by
  induction is generalizing a with
  | nil => simp [stops, layout, extent]
  | cons i is ih =>
    rw [stops, List.mem_cons, ih, layout, extent_cons, Nat.add_assoc]
    simp only [List.mem_cons, Prod.mk.injEq, exists_or, exists_and_left, exists_eq, and_true]
    exact or_left_comm

theorem le_of_mem_stops (h : x ∈ stops a is) : a ≤ x := by
  induction is generalizing a with
  | nil => exact (List.mem_singleton.mp h).ge
  | cons i is ih =>
    rcases List.mem_cons.mp h with rfl | h
    · exact Nat.le_refl x
    · exact (Nat.le_add_right a _).trans (ih h)

theorem mem_stops_of_mem_layout (h : (x, i) ∈ layout a is) : x ∈ stops a is :=
  mem_stops_iff.mpr (.inr ⟨i, h⟩)

theorem next_mem_stops (h : (x, i) ∈ layout a is) : x + i.width ∈ stops a is := by
  induction is generalizing a with
  | nil => cases h
  | cons j is ih =>
    rcases List.mem_cons.mp h with he | h
    · obtain ⟨rfl, rfl⟩ := Prod.mk.inj he
      exact List.mem_cons_of_mem _ (self_mem_stops _ is)
    · exact List.mem_cons_of_mem _ (ih h)

theorem inside_not_mem_stops {y : ℕ} (h : (x, i) ∈ layout a is) (hx : x < y)
    (hy : y < x + i.width) : y ∉ stops a is := by
  induction is generalizing a with
  | nil => cases h
  | cons j is ih =>
    rw [stops, List.mem_cons, not_or]
    rcases List.mem_cons.mp h with he | h
    · obtain ⟨rfl, rfl⟩ := Prod.mk.inj he
      refine ⟨hx.ne', fun hmem => ?_⟩
      exact absurd (le_of_mem_stops hmem) (Nat.not_le.mpr hy)
    · have hle := le_of_mem_stops (mem_stops_of_mem_layout h)
      have hpos := j.width_pos
      exact ⟨by omega, ih h⟩

end Instruction

open Instruction

namespace Code

theorem extent_instructions (c : Code) : extent c.instructions = c.size := by
  induction c with
  | done => rfl
  | act a rest ih =>
    rw [instructions, extent_cons, width_action, ih, size, Nat.add_comm]
  | loop body rest ihb ihr =>
    rw [instructions, List.cons_append, extent_cons, extent_append, extent_cons, ihb, ihr, width,
      width, size]
    omega

theorem layout_loop (address : ℕ) (body rest : Code) :
    layout address (loop body rest).instructions =
      (address, .loopStart) :: layout (address + 2) body.instructions ++
        (address + body.size + 2, .loopEnd) ::
          layout (address + body.size + 4) rest.instructions := by
  rw [instructions, List.cons_append, layout, layout_append, extent_instructions, layout]
  simp only [width, Nat.add_right_comm _ 2]
  rfl

theorem mem_stops_loop {x address : ℕ} {body rest : Code} :
    x ∈ stops address (loop body rest).instructions ↔
      x = address ∨ x ∈ stops (address + 2) body.instructions ∨ x = address + body.size + 2 ∨
        x ∈ stops (address + body.size + 4) rest.instructions := by
  rw [instructions, List.cons_append, stops, List.mem_cons, mem_stops_append, extent_instructions,
    stops, List.mem_cons]
  simp only [width, Nat.add_right_comm _ 2]

end Code

structure Program.Has (program : Program) (targets : List ℕ) (a : ℕ) (i : Instruction) : Prop where
  cell : program[a]? = some (i.code : Goldilocks)
  operand : i.width = 2 → ∃ x ∈ program[a + 1]?, x.val ∈ targets

theorem Program.Has.mono {program : Program} {targets more : List ℕ} {a : ℕ} {i : Instruction}
    (h : program.Has targets a i) (hsub : targets ⊆ more) : program.Has more a i := by
  refine ⟨h.cell, fun hi => ?_⟩
  obtain ⟨x, hx, hmem⟩ := h.operand hi
  exact ⟨x, hx, hsub hmem⟩

/-- The operands in a placed code are addresses of its instructions, or its end. -/
theorem Code.Placed.has {program : Program} {c : Code} {address a : ℕ} {i : Instruction}
    (h : c.Placed program address) (hi : (a, i) ∈ layout address c.instructions) :
    program.Has (stops address c.instructions) a i := by
  induction c generalizing address with
  | done => cases hi
  | act b rest ih =>
    rw [instructions, layout, width_action] at hi
    rw [instructions, stops, width_action]
    rcases List.mem_cons.mp hi with he | hi
    · obtain ⟨rfl, rfl⟩ := Prod.mk.inj he
      refine ⟨h.1, fun hwidth => ?_⟩
      rw [width_action] at hwidth
      cases hwidth
    · exact (ih h.2 hi).mono (List.subset_cons_self _ _)
  | loop body rest ihb ihr =>
    obtain ⟨hstart, ⟨x, hx, hxval⟩, hbody, hend, ⟨y, hy, hyval⟩, hrest⟩ := h
    rw [layout_loop, List.mem_append, List.mem_cons, List.mem_cons] at hi
    rcases hi with (he | hi) | he | hi
    · obtain ⟨rfl, rfl⟩ := Prod.mk.inj he
      refine ⟨hstart, fun _ => ⟨x, hx, ?_⟩⟩
      rw [hxval, mem_stops_loop]
      exact .inr (.inr (.inr (self_mem_stops _ _)))
    · refine (ihb hbody hi).mono fun z hz => ?_
      exact mem_stops_loop.mpr (.inr (.inl hz))
    · obtain ⟨rfl, rfl⟩ := Prod.mk.inj he
      refine ⟨hend, fun _ => ⟨y, hy, ?_⟩⟩
      rw [hyval, mem_stops_loop]
      exact .inr (.inl (self_mem_stops _ _))
    · refine (ihr hrest hi).mono fun z hz => ?_
      exact mem_stops_loop.mpr (.inr (.inr (.inr hz)))

namespace Program

structure Closed (program : Program) (is : List Instruction) : Prop where
  size : program.size = extent is
  has : ∀ a i, (a, i) ∈ layout 0 is → program.Has (stops 0 is) a i

theorem depthAfter_emit {d d' : Draft} {i : Instruction} (h : d.emit i = .ok d')
    (is : List Instruction) :
    depthAfter (i :: is) d.waiting.length = depthAfter is d'.waiting.length := by
  cases i with
  | loopStart =>
    obtain rfl := Except.ok.inj h
    rfl
  | loopEnd =>
    rw [Draft.emit] at h
    split at h
    · cases h
    · next start rest hwaiting =>
      obtain rfl := Except.ok.inj h
      rw [hwaiting]
      rfl
  | left | right | increment | decrement | read | write =>
    obtain rfl := Except.ok.inj h
    rfl

theorem depthAfter_foldlM_emit {is : List Instruction} {d d' : Draft}
    (h : is.foldlM Draft.emit d = .ok d') :
    depthAfter is d.waiting.length = some d'.waiting.length := by
  induction is generalizing d with
  | nil =>
    obtain rfl := Except.ok.inj h
    rfl
  | cons i is ih =>
    rw [List.foldlM_cons] at h
    cases hemit : d.emit i with
    | error e => rw [hemit] at h; cases h
    | ok next =>
      rw [hemit] at h
      rw [depthAfter_emit hemit, ih h]

theorem balanced_of_assemble {is : List Instruction} {program : Program}
    (h : assemble is = .ok program) : Balanced is := by
  rw [assemble] at h
  cases hfold : is.foldlM Draft.emit {} with
  | error e => rw [hfold] at h; cases h
  | ok d =>
    have hdepth := depthAfter_foldlM_emit hfold
    rw [hfold] at h
    simp only [bind, Except.bind] at h
    split at h
    · next hwaiting => rwa [hwaiting] at hdepth
    · cases h

theorem closed_of_compile {source : String} {program : Program}
    (hcompile : compile source = .ok program) (hsize : program.size < Goldilocks.modulus) :
    program.Closed (ofText source) := by
  have hassemble : assemble (ofText source) = .ok program := hcompile
  obtain ⟨code, hcode⟩ := (Code.balanced_iff _).mp (balanced_of_assemble hassemble)
  rw [← hcode, assemble_code] at hassemble
  obtain rfl := Except.ok.inj hassemble
  have hplaced : code.Placed (code.cells 0).toArray 0 := by
    refine Code.placed_of_holds hsize fun k x hk => ?_
    rwa [Nat.zero_add, List.getElem?_toArray]
  rw [← hcode]
  refine ⟨?_, fun a i hi => hplaced.has hi⟩
  rw [List.size_toArray, Code.length_cells, Code.extent_instructions]

namespace Closed
variable {program : Program} {is : List Instruction} {m n l : Machine} {ms : List Machine}
  {xs : List Goldilocks} (h : program.Closed is)
include h

theorem exists_instruction {a : ℕ} {cell : Goldilocks} (ha : a ∈ stops 0 is)
    (hcell : program[a]? = some cell) : ∃ i, (a, i) ∈ layout 0 is ∧ cell = i.code := by
  rcases mem_stops_iff.mp ha with rfl | ⟨i, hi⟩
  · have hlt := (Array.getElem?_eq_some_iff.mp hcell).1
    rw [h.size, Nat.zero_add] at hlt
    exact absurd hlt (Nat.lt_irrefl _)
  · exact ⟨i, hi, Option.some.inj (hcell.symm.trans (h.has _ i hi).cell)⟩

/-- An instruction leads to a stop, or it reads and no input is left. -/
theorem execute {i : Instruction} (hi : (m.instructionPointer, i) ∈ layout 0 is) :
    (∃ n, m.execute program i = .ok n ∧ n.instructionPointer ∈ stops 0 is) ∨
      m.execute program i = .error (.inputExhausted m.cycle) := by
  have hnext := next_mem_stops hi
  have hjump (hwidth : i.width = 2) :
      ∃ n, m.jump program = .ok n ∧ n.instructionPointer ∈ stops 0 is := by
    obtain ⟨x, hx, hmem⟩ := (h.has _ i hi).operand hwidth
    exact ⟨m.goto x.val, by rw [Machine.jump, hx], hmem⟩
  cases i with
  | loopStart =>
    rw [Machine.execute]
    split
    · exact .inl (hjump rfl)
    · exact .inl ⟨_, rfl, hnext⟩
  | loopEnd =>
    rw [Machine.execute]
    split
    · exact .inl ⟨_, rfl, hnext⟩
    · exact .inl (hjump rfl)
  | left | right | increment | decrement | write => exact .inl ⟨_, rfl, hnext⟩
  | read =>
    rw [Machine.execute]
    split
    · exact .inr rfl
    · exact .inl ⟨_, rfl, hnext⟩

theorem step {i : Instruction} (hi : (m.instructionPointer, i) ∈ layout 0 is) :
    (∃ n symbol, m.step program (i.code : Goldilocks) = .ok (n, symbol) ∧
        n.instructionPointer ∈ stops 0 is) ∨
      m.step program (i.code : Goldilocks) = .error (.inputExhausted m.cycle) := by
  rw [Machine.step_code]
  rcases h.execute hi with ⟨n, hn, hmem⟩ | hfault
  · exact .inl ⟨n, _, by rw [hn]; rfl, hmem⟩
  · exact .inr (by rw [hfault]; rfl)

theorem path (hpath : m.Path program ms xs l) (hm : m.instructionPointer ∈ stops 0 is) :
    l.instructionPointer ∈ stops 0 is := by
  induction hpath with
  | refl => exact hm
  | step hcell hstep _ ih =>
    obtain ⟨i, hi, rfl⟩ := h.exists_instruction hm hcell
    rcases h.step hi with ⟨n, symbol, hn, hmem⟩ | hfault
    · rw [hn] at hstep
      obtain ⟨rfl, -⟩ := Prod.mk.inj (Except.ok.inj hstep)
      exact ih hmem
    · rw [hfault] at hstep
      cases hstep

/-- Outside the program there is one stop, its end. -/
theorem address_of_halted (hl : l.Halted program) (hmem : l.instructionPointer ∈ stops 0 is) :
    l.instructionPointer = program.size := by
  rcases mem_stops_iff.mp hmem with he | ⟨i, hi⟩
  · rw [he, h.size, Nat.zero_add]
  · exact absurd ((h.has _ i hi).cell.symm.trans hl) (Option.some_ne_none _)

theorem fault_eq {e : Fault} (hl : l.Faults program e) (hmem : l.instructionPointer ∈ stops 0 is) :
    e = .inputExhausted l.cycle := by
  obtain ⟨cell, hcell, hstep⟩ := hl
  obtain ⟨i, hi, rfl⟩ := h.exists_instruction hmem hcell
  rcases h.step hi with ⟨n, symbol, hn, -⟩ | hfault
  · rw [hn] at hstep
    cases hstep
  · exact Except.error.inj (hstep.symm.trans hfault)

end Closed

/-- On an input the machine is always at an instruction of the program or at its end, and never at
an operand. It can stop early only for want of input, and otherwise stops right at the end. -/
structure KeepsTo (program : Program) (is : List Instruction) (input : List Goldilocks) : Prop where
  stops : ∀ ms xs l, Machine.Path program { input } ms xs l →
    l.instructionPointer = program.size ∨ ∃ i, (l.instructionPointer, i) ∈ layout 0 is ∧
      program[l.instructionPointer]? = some (i.code : Goldilocks)
  operands : ∀ ms xs l, Machine.Path program { input } ms xs l →
    ∀ a i, (a, i) ∈ layout 0 is → i.width = 2 → l.instructionPointer ≠ a + 1
  faults : ∀ fuel e, simulate fuel program input = some (.error e) →
    ∃ cycle, e = .inputExhausted cycle
  ends : ∀ fuel run, simulate fuel program input = some (.ok run) →
    ∃ r ∈ run.trace.getLast?, r.instructionPointer.val = program.size

theorem Closed.keepsTo {program : Program} {is : List Instruction} (h : program.Closed is)
    (hsize : program.size < Goldilocks.modulus) (input : List Goldilocks) :
    program.KeepsTo is input := by
  have hstop (ms xs l) (hpath : Machine.Path program { input } ms xs l) :
      l.instructionPointer ∈ Instruction.stops 0 is :=
    h.path hpath (self_mem_stops 0 is)
  refine ⟨?_, ?_, ?_, ?_⟩
  · intro ms xs l hpath
    rcases mem_stops_iff.mp (hstop ms xs l hpath) with he | ⟨i, hi⟩
    · exact .inl (by rw [he, h.size, Nat.zero_add])
    · exact .inr ⟨i, hi, (h.has _ i hi).cell⟩
  · intro ms xs l hpath a i hi hwidth he
    have hinside : a + 1 ∉ Instruction.stops 0 is :=
      inside_not_mem_stops hi (Nat.lt_succ_self a) (by omega)
    exact hinside (he ▸ hstop ms xs l hpath)
  · intro fuel e hrun
    obtain ⟨ms, xs, l, hpath, ⟨-, hok⟩ | ⟨e', hfaults, he⟩⟩ := Run.path_of_continueFrom hrun
    · cases hok
    · obtain rfl := Except.error.inj he
      exact ⟨l.cycle, h.fault_eq hfaults (hstop ms xs l hpath)⟩
  · intro fuel run hrun
    obtain ⟨ms, xs, l, hpath, hl, rfl⟩ := path_of_simulate hrun
    have haddress := h.address_of_halted hl (hstop ms xs l hpath)
    refine ⟨l.final, List.getLast?_concat, ?_⟩
    exact haddress ▸ Goldilocks.natCast_val_of_lt (haddress ▸ hsize)

/-- A compiled program that fits into the field keeps to the instructions of its source, on every
input. -/
theorem compile_keepsTo {source : String} {program : Program}
    (hcompile : compile source = .ok program) (hsize : program.size < Goldilocks.modulus)
    (input : List Goldilocks) : program.KeepsTo (ofText source) input :=
  (closed_of_compile hcompile hsize).keepsTo hsize input

/-- Forty-one increments and a loop. Its operands are the codes of write and of increment. -/
def raiseAndClear : Program :=
  (List.replicate 41 (Instruction.increment.code : Goldilocks) ++
    [(Instruction.loopStart.code : Goldilocks), (Instruction.write.code : Goldilocks),
      (Instruction.decrement.code : Goldilocks), (Instruction.loopEnd.code : Goldilocks),
      (Instruction.increment.code : Goldilocks)]).toArray

theorem raiseAndClear_keepsTo :
    compile "+++++++++++++++++++++++++++++++++++++++++[-]" = .ok raiseAndClear ∧
      ∀ input, raiseAndClear.KeepsTo (ofText "+++++++++++++++++++++++++++++++++++++++++[-]")
        input := by
  have htext : ofText "+++++++++++++++++++++++++++++++++++++++++[-]" =
      List.replicate 41 .increment ++ [.loopStart, .decrement, .loopEnd] := by decide
  have hcompile : compile "+++++++++++++++++++++++++++++++++++++++++[-]" = .ok raiseAndClear := by
    rw [compile, ← ofText, htext]
    rfl
  exact ⟨hcompile, compile_keepsTo hcompile (by decide)⟩

end Program

end TapeAir
