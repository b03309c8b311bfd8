import TapeAir.Proofs.Field.Prime
import TapeAir.Proofs.Machine.Compilation
import TapeAir.Proofs.Machine.Path
/-! # The machine carries out structured programs

A machine at the first cell of a code, with the memory of a structured run, goes through the code as
the structured run does. A loop is entered at either bracket, since both test the cell in the same
way; so the state between two repetitions is again an entry. Where no structured run ends, every
amount of fuel runs out.
-/
namespace TapeAir

namespace Program
variable {program : Program} {address : ℕ} {xs ys : List Goldilocks} {x : Goldilocks}

def Holds (program : Program) (address : ℕ) (xs : List Goldilocks) : Prop :=
  ∀ (k : ℕ) (x : Goldilocks), xs[k]? = some x → program[address + k]? = some x

theorem Holds.head (h : program.Holds address (x :: xs)) : program[address]? = some x := h 0 x rfl

theorem Holds.tail (h : program.Holds address (x :: xs)) : program.Holds (address + 1) xs := by
  intro k y hk
  rw [Nat.add_assoc, Nat.add_comm 1]
  exact h (k + 1) y hk

theorem Holds.left (h : program.Holds address (xs ++ ys)) : program.Holds address xs := by
  intro k y hk
  refine h k y ?_
  rw [List.getElem?_append_left (List.getElem?_eq_some_iff.mp hk).1, hk]

theorem Holds.right (h : program.Holds address (xs ++ ys)) :
    program.Holds (address + xs.length) ys := by
  intro k y hk
  rw [Nat.add_assoc]
  refine h (xs.length + k) y ?_
  rw [List.getElem?_append_right (Nat.le_add_right _ _), Nat.add_sub_cancel_left, hk]

end Program

namespace Code

def Placed (program : Program) (address : ℕ) : Code → Prop
  | .done => True
  | .act a rest =>
    program[address]? = some (a.instruction.code : Goldilocks) ∧ rest.Placed program (address + 1)
  | .loop body rest =>
    program[address]? = some (Instruction.loopStart.code : Goldilocks) ∧
    (∃ x ∈ program[address + 1]?, x.val = address + body.size + 4) ∧
    body.Placed program (address + 2) ∧
    program[address + body.size + 2]? = some (Instruction.loopEnd.code : Goldilocks) ∧
    (∃ x ∈ program[address + body.size + 3]?, x.val = address + 2) ∧
    rest.Placed program (address + body.size + 4)

theorem placed_of_holds {program : Program} (hsize : program.size < Goldilocks.modulus) {c : Code}
    {address : ℕ} (h : program.Holds address (c.cells address)) : c.Placed program address := by
  induction c generalizing address with
  | done => trivial
  | act a rest ih => exact ⟨h.head, ih h.tail⟩
  | loop body rest ihb ihr =>
    have hafter := h.tail.tail.right
    rw [length_cells, show address + 1 + 1 + body.size = address + body.size + 2 by omega] at hafter
    have hlast := hafter.tail.head
    have hbound := (Array.getElem?_eq_some_iff.mp hlast).1
    exact ⟨h.head, ⟨_, h.tail.head, Goldilocks.natCast_val_of_lt (by omega)⟩, ihb h.tail.tail.left,
      hafter.head, ⟨_, hlast, Goldilocks.natCast_val_of_lt (by omega)⟩, ihr hafter.tail.tail⟩

/-- Where the machine may enter a code: at its first cell, a loop also at its closing bracket. -/
def entries (address : ℕ) : Code → List ℕ
  | .loop body _ => [address, address + body.size + 2]
  | _ => [address]

theorem address_mem_entries (c : Code) (address : ℕ) : address ∈ c.entries address := by
  cases c <;> simp [entries]

theorem end_mem_entries (body rest : Code) (address : ℕ) :
    address + 2 + body.size ∈ (Code.loop body rest).entries address := by
  simp [entries, Nat.add_right_comm]

end Code

namespace Machine

structure Matches (m : Machine) (s : Memory) (address : ℕ) : Prop where
  address : m.instructionPointer = address
  pointer : m.memoryPointer = s.pointer
  cells : ∀ p, m.tape.read p = s.cells p
  input : m.input = s.input

variable {program : Program} {m : Machine} {s : Memory} {address : ℕ}

theorem Matches.value (h : m.Matches s address) : m.value = s.value := by
  rw [Machine.value, Memory.value, h.cells, h.pointer]

theorem Matches.goto (h : m.Matches s address) (a : ℕ) : (m.goto a).Matches s a :=
  ⟨rfl, h.pointer, h.cells, h.input⟩

theorem Matches.store (h : m.Matches s address) (v : Goldilocks) :
    (m.store v).Matches (s.store v) address := by
  refine ⟨h.address, h.pointer, ?_, h.input⟩
  intro p
  simp only [Machine.store, Memory.store, Tape.read_write, h.cells, h.pointer, eq_comm]

theorem Matches.step_action {a : Action} {t : Memory} (h : m.Matches s address)
    (ha : s.act? a = some t) :
    ∃ n symbol, m.step program (a.instruction.code : Goldilocks) = .ok (n, symbol) ∧
      n.Matches t (address + 1) ∧ t.output = symbol.toList ++ s.output := by
  have hp : m.instructionPointer + 1 = address + 1 := by rw [h.address]
  rw [step_code]
  cases a with
  | left =>
    obtain rfl := Option.some.inj ha
    exact ⟨_, _, rfl, ⟨hp, congrArg (· - 1) h.pointer, h.cells, h.input⟩, rfl⟩
  | right =>
    obtain rfl := Option.some.inj ha
    exact ⟨_, _, rfl, ⟨hp, congrArg (· + 1) h.pointer, h.cells, h.input⟩, rfl⟩
  | increment =>
    obtain rfl := Option.some.inj ha
    exact ⟨_, _, rfl, hp ▸ h.value ▸ (h.store _).goto _, rfl⟩
  | decrement =>
    obtain rfl := Option.some.inj ha
    exact ⟨_, _, rfl, hp ▸ h.value ▸ (h.store _).goto _, rfl⟩
  | read =>
    cases hinput : s.input with
    | nil => simp [Memory.act?, hinput] at ha
    | cons v rest =>
      have hm : m.input = v :: rest := h.input.trans hinput
      simp only [Memory.act?, hinput, Option.some.injEq] at ha
      subst ha
      have hstore := h.store v
      simp only [Action.instruction, execute, hm, Except.map]
      exact ⟨_, _, rfl, ⟨hp, hstore.pointer, hstore.cells, rfl⟩, rfl⟩
  | write =>
    obtain rfl := Option.some.inj ha
    refine ⟨_, _, rfl, ⟨hp, h.pointer, h.cells, h.input⟩, ?_⟩
    simp [emitted, Action.instruction, h.value]

theorem Matches.faults_of_act?_eq_none {a : Action} (h : m.Matches s address) (ha : s.act? a = none)
    (hcell : program[address]? = some (a.instruction.code : Goldilocks)) :
    m.Faults program (.inputExhausted m.cycle) := by
  refine ⟨_, h.address ▸ hcell, ?_⟩
  have hinput : a = .read ∧ m.input = [] := by
    rw [h.input]
    cases a with
    | read =>
      cases hs : s.input with
      | nil => exact ⟨rfl, rfl⟩
      | cons v rest => simp [Memory.act?, hs] at ha
    | left => cases ha
    | right => cases ha
    | increment => cases ha
    | decrement => cases ha
    | write => cases ha
  obtain ⟨rfl, hm⟩ := hinput
  simp only [step_code, Action.instruction, execute, hm, Except.map]

theorem step_bracket {body rest : Code} {ip : ℕ}
    (hplaced : (Code.loop body rest).Placed program address)
    (hip : ip ∈ (Code.loop body rest).entries address) (h : m.Matches s ip) :
    ∃ cell n, program[m.instructionPointer]? = some cell ∧ m.step program cell = .ok (n, none) ∧
      n.Matches s (if s.value = 0 then address + body.size + 4 else address + 2) := by
  obtain ⟨hstart, ⟨x, hx, hxval⟩, -, hend, ⟨y, hy, hyval⟩, -⟩ := hplaced
  simp only [Code.entries, List.mem_cons, List.not_mem_nil, or_false] at hip
  rw [← h.value, h.address]
  rcases hip with rfl | rfl
  · refine ⟨_, m.goto (if m.value = 0 then ip + body.size + 4 else ip + 2), hstart, ?_, h.goto _⟩
    rw [step_code, execute, jump, h.address, hx, ← hxval]
    split <;> simp [Except.map, emitted, skipOperand, h.address]
  · refine ⟨_, m.goto (if m.value = 0 then address + body.size + 4 else address + 2), hend, ?_,
      h.goto _⟩
    rw [step_code, execute, jump, h.address, hy, ← hyval]
    split <;> simp [Except.map, emitted, skipOperand, h.address]

end Machine

namespace Program
variable {program : Program} {s t u : Memory} {a b c : ℕ}

/-- Every machine with one memory at one address comes to the other memory at the other address,
and writes the difference of their outputs. -/
def Reaches (program : Program) (s : Memory) (a : ℕ) (t : Memory) (b : ℕ) : Prop :=
  ∀ m : Machine, m.Matches s a → ∃ ms xs n, m.Path program ms xs n ∧ n.Matches t b ∧
    t.output = xs.reverse ++ s.output

/-- Every machine with the memory at the address comes to a cycle for which it has no input. -/
def Starves (program : Program) (s : Memory) (a : ℕ) : Prop :=
  ∀ m : Machine, m.Matches s a → ∃ ms xs n, m.Path program ms xs n ∧
    ∃ cycle, n.Faults program (.inputExhausted cycle)

theorem Reaches.refl : program.Reaches s a s a := fun m h => ⟨[], [], m, .refl m, h, rfl⟩

theorem Reaches.trans (h : program.Reaches s a t b) (h' : program.Reaches t b u c) :
    program.Reaches s a u c := by
  intro m hm
  obtain ⟨ms, xs, n, hpath, hn, hout⟩ := h m hm
  obtain ⟨ns, ys, l, hpath', hl, hout'⟩ := h' n hn
  refine ⟨ms ++ ns, xs ++ ys, l, hpath.trans hpath', hl, ?_⟩
  rw [hout', hout, List.reverse_append, List.append_assoc]

theorem Reaches.starves (h : program.Reaches s a t b) (h' : program.Starves t b) :
    program.Starves s a := by
  intro m hm
  obtain ⟨ms, xs, n, hpath, hn, -⟩ := h m hm
  obtain ⟨ns, ys, l, hpath', hl⟩ := h' n hn
  exact ⟨ms ++ ns, xs ++ ys, l, hpath.trans hpath', hl⟩

theorem reaches_of_act? {x : Action} (hx : s.act? x = some t)
    (hcell : program[a]? = some (x.instruction.code : Goldilocks)) :
    program.Reaches s a t (a + 1) := by
  intro m hm
  obtain ⟨n, symbol, hstep, hn, hout⟩ := hm.step_action hx
  refine ⟨_, _, n, .single (hm.address ▸ hcell) hstep, hn, ?_⟩
  rw [hout]
  cases symbol <;> rfl

theorem reaches_of_bracket {body rest : Code} {ip : ℕ}
    (hplaced : (Code.loop body rest).Placed program a)
    (hip : ip ∈ (Code.loop body rest).entries a) :
    program.Reaches s ip s (if s.value = 0 then a + body.size + 4 else a + 2) := by
  intro m hm
  obtain ⟨cell, n, hcell, hstep, hn⟩ := Machine.step_bracket hplaced hip hm
  exact ⟨_, _, n, .single hcell hstep, hn, rfl⟩

def Follows (program : Program) (s : Memory) (ip last : ℕ) : Ending → Prop
  | .finished t => program.Reaches s ip t last
  | .starved => program.Starves s ip

theorem Reaches.follows {e : Ending} (h : program.Reaches s a t b)
    (h' : program.Follows t b c e) : program.Follows s a c e := by
  cases e with
  | finished u => exact Reaches.trans h h'
  | starved => exact Reaches.starves h h'

theorem follows_of_runs {code : Code} {e : Ending} (h : code.Runs s e) {address ip : ℕ}
    (hplaced : code.Placed program address) (hip : ip ∈ code.entries address) :
    program.Follows s ip (address + code.size) e := by
  induction h generalizing address ip with
  | done m =>
    obtain rfl := List.mem_singleton.mp hip
    exact Reaches.refl
  | act hact _ ih =>
    obtain rfl := List.mem_singleton.mp hip
    have hrest := ih hplaced.2 (Code.address_mem_entries _ _)
    rw [Nat.add_right_comm] at hrest
    exact (reaches_of_act? hact hplaced.1).follows hrest
  | starve hact =>
    obtain rfl := List.mem_singleton.mp hip
    intro m hm
    exact ⟨[], [], m, .refl m, m.cycle, hm.faults_of_act?_eq_none hact hplaced.1⟩
  | @leave body rest m e hzero _ ih =>
    have hleave := reaches_of_bracket (s := m) hplaced hip
    rw [if_pos hzero] at hleave
    have hrest := ih hplaced.2.2.2.2.2 (Code.address_mem_entries _ _)
    rw [show address + body.size + 4 + rest.size = address + (Code.loop body rest).size by
      simp only [Code.size]; omega] at hrest
    exact hleave.follows hrest
  | @again body rest m n e hnonzero _ _ ihbody ihloop =>
    have henter := reaches_of_bracket (s := m) hplaced hip
    rw [if_neg hnonzero] at henter
    have hbody : program.Reaches m (address + 2) n (address + 2 + body.size) :=
      ihbody hplaced.2.2.1 (Code.address_mem_entries _ _)
    have hagain := Code.end_mem_entries body rest address
    exact (henter.trans hbody).follows (ihloop hplaced hagain)
  | @starveInside body rest m hnonzero _ ih =>
    have henter := reaches_of_bracket (s := m) hplaced hip
    rw [if_neg hnonzero] at henter
    exact henter.starves (ih hplaced.2.2.1 (Code.address_mem_entries _ _))

/-- Where a structured run has no ending, the machine has no outcome. -/
theorem runs_or_none (fuel : ℕ) (past : Trace) (output : List Goldilocks) {code : Code}
    {address ip : ℕ} {m : Machine} (hplaced : code.Placed program address)
    (hip : ip ∈ code.entries address) (hm : m.Matches s ip) :
    (∃ e, code.Runs s e) ∨ Run.continueFrom program fuel m past output = none := by
  induction fuel using Nat.strong_induction_on generalizing s code address ip m past output with
  | _ fuel ih =>
    cases fuel with
    | zero => exact .inr rfl
    | succ fuel =>
      have hlt := Nat.lt_succ_self fuel
      cases code with
      | done => exact .inl ⟨_, .done s⟩
      | act x rest =>
        obtain rfl := List.mem_singleton.mp hip
        cases hx : s.act? x with
        | none => exact .inl ⟨_, .starve hx⟩
        | some t =>
          obtain ⟨n, symbol, hstep, hn, -⟩ := hm.step_action hx
          rw [Run.continueFrom_step (hm.address ▸ hplaced.1) hstep]
          refine (ih fuel hlt _ _ hplaced.2 (rest.address_mem_entries _) hn).imp_left ?_
          rintro ⟨e, he⟩
          exact ⟨e, .act hx he⟩
      | loop body rest =>
        obtain ⟨cell, n, hcell, hstep, hn⟩ := Machine.step_bracket hplaced hip hm
        rw [Run.continueFrom_step hcell hstep]
        by_cases hzero : s.value = 0
        · rw [if_pos hzero] at hn
          refine (ih fuel hlt _ _ hplaced.2.2.2.2.2 (rest.address_mem_entries _) hn).imp_left ?_
          rintro ⟨e, he⟩
          exact ⟨e, .leave hzero he⟩
        · rw [if_neg hzero] at hn
          rcases ih fuel hlt _ _ hplaced.2.2.1 (body.address_mem_entries _) hn with ⟨e, he⟩ | hnone
          · cases e with
            | starved => exact .inl ⟨_, .starveInside hzero he⟩
            | finished t =>
              by_cases hloop : ∃ e, (Code.loop body rest).Runs t e
              · obtain ⟨e, hloop⟩ := hloop
                exact .inl ⟨e, .again hzero he hloop⟩
              · -- the body comes back to the closing bracket, with less fuel than before
                obtain ⟨ms, xs, l, hpath, hl, -⟩ :=
                  follows_of_runs he hplaced.2.2.1 (body.address_mem_entries _) n hn
                refine .inr (Run.continueFrom_eq_none_of_path hpath fun past output => ?_)
                have hagain := Code.end_mem_entries body rest address
                exact (ih (fuel - ms.length) (by omega) past output hplaced hagain hl).resolve_left
                  hloop
          · exact .inr hnone

end Program

structure Run.Shows (run : Run) (t : Memory) : Prop where
  output : run.output = t.output.reverse
  final : ∃ r ∈ run.trace.getLast?, r.memoryPointer = t.pointer ∧ r.memoryValue = t.value

namespace Program
variable {code : Code} {input : List Goldilocks}

structure Implements (program : Program) (code : Code) : Prop where
  returns_iff : ∀ input, (∃ fuel run, simulate fuel program input = some (.ok run)) ↔
    ∃ t, code.Runs (.start input) (.finished t)
  shows : ∀ input fuel run t, simulate fuel program input = some (.ok run) →
    code.Runs (.start input) (.finished t) → run.Shows t
  raises_iff : ∀ input,
    (∃ fuel cycle, simulate fuel program input = some (.error (.inputExhausted cycle))) ↔
      code.Runs (.start input) .starved
  faults : ∀ input fuel e, simulate fuel program input = some (.error e) →
    ∃ cycle, e = .inputExhausted cycle

theorem matches_start (input : List Goldilocks) :
    Machine.Matches { input } (Memory.start input) 0 :=
  ⟨rfl, rfl, fun _ => Tape.read_empty _, rfl⟩

def Agrees (outcome : Except Fault Run) : Ending → Prop
  | .finished t => ∃ run, outcome = .ok run ∧ run.Shows t
  | .starved => ∃ cycle, outcome = .error (.inputExhausted cycle)

theorem exists_outcome {e : Ending} (hplaced : code.Placed program 0)
    (hsize : program.size = code.size) (h : code.Runs (.start input) e) :
    ∃ fuel outcome, simulate fuel program input = some outcome ∧ Agrees outcome e := by
  have hfollows := follows_of_runs h hplaced (code.address_mem_entries 0)
  rw [Nat.zero_add] at hfollows
  cases e with
  | finished t =>
    obtain ⟨ms, xs, n, hpath, hn, hout⟩ := hfollows _ (matches_start input)
    have hhalted : n.Halted program := by
      rw [Machine.Halted, hn.address, Array.getElem?_eq_none (Nat.le_of_eq hsize)]
    refine ⟨_, _, simulate_halted hpath hhalted, _, rfl, ?_, n.final, ?_, hn.pointer, hn.value⟩
    · rw [hout]
      simp [Memory.start, Machine.runAlong]
    · simp [Machine.runAlong]
  | starved =>
    obtain ⟨ms, xs, n, hpath, cycle, hfaults⟩ := hfollows _ (matches_start input)
    exact ⟨_, _, simulate_faults hpath hfaults, cycle, rfl⟩

theorem exists_ending {fuel : ℕ} {outcome : Except Fault Run} (hplaced : code.Placed program 0)
    (hsize : program.size = code.size) (h : simulate fuel program input = some outcome) :
    ∃ e, code.Runs (.start input) e ∧ Agrees outcome e := by
  have hruns := runs_or_none fuel [] [] hplaced (code.address_mem_entries 0) (matches_start input)
  obtain ⟨e, he⟩ := hruns.resolve_right (by rw [simulate] at h; simp [h])
  obtain ⟨fuel', outcome', h', hagrees⟩ := exists_outcome hplaced hsize he
  exact ⟨e, he, Run.outcome_unique h h' ▸ hagrees⟩

theorem implements_of_placed (hplaced : code.Placed program 0) (hsize : program.size = code.size) :
    program.Implements code := by
  refine ⟨?_, ?_, ?_, ?_⟩
  · intro input
    constructor
    · rintro ⟨fuel, run, h⟩
      obtain ⟨e, he, hagrees⟩ := exists_ending hplaced hsize h
      cases e with
      | finished t => exact ⟨t, he⟩
      | starved => obtain ⟨cycle, hcycle⟩ := hagrees; cases hcycle
    · rintro ⟨t, ht⟩
      obtain ⟨fuel, _, h, run, rfl, -⟩ := exists_outcome hplaced hsize ht
      exact ⟨fuel, run, h⟩
  · intro input fuel run t h ht
    obtain ⟨fuel', _, h', run', rfl, hshows⟩ := exists_outcome hplaced hsize ht
    obtain rfl := Except.ok.inj (Run.outcome_unique h h')
    exact hshows
  · intro input
    constructor
    · rintro ⟨fuel, cycle, h⟩
      obtain ⟨e, he, hagrees⟩ := exists_ending hplaced hsize h
      cases e with
      | finished t => obtain ⟨run, hrun, -⟩ := hagrees; cases hrun
      | starved => exact he
    · intro h
      obtain ⟨fuel, _, h, cycle, rfl⟩ := exists_outcome hplaced hsize h
      exact ⟨fuel, cycle, h⟩
  · intro input fuel fault h
    obtain ⟨e, -, hagrees⟩ := exists_ending hplaced hsize h
    cases e with
    | finished t => obtain ⟨run, hrun, -⟩ := hagrees; cases hrun
    | starved =>
      obtain ⟨cycle, hcycle⟩ := hagrees
      exact ⟨cycle, Except.error.inj hcycle⟩

/-- A balanced source is the text of one code and compiles, and the compiled program does what that
code does if its addresses are field elements. -/
theorem compile_implements {source : String}
    (h : Instruction.Balanced (Instruction.ofText source)) :
    (∃! code : Code, code.instructions = Instruction.ofText source) ∧
      ∃ program, compile source = .ok program ∧
        (program.size < Goldilocks.modulus → ∀ code : Code,
          code.instructions = Instruction.ofText source → program.Implements code) := by
  obtain ⟨code, hcode⟩ := (Code.balanced_iff _).mp h
  have hunique (code' : Code) (h' : code'.instructions = Instruction.ofText source) :
      code' = code := Code.instructions_injective (h'.trans hcode.symm)
  refine ⟨⟨code, hcode, hunique⟩, (code.cells 0).toArray, ?_, ?_⟩
  · rw [compile, ← Instruction.ofText, ← hcode, assemble_code]
  · intro hsize code' hcode'
    rw [hunique code' hcode']
    refine implements_of_placed (Code.placed_of_holds hsize fun k x hk => ?_) ?_
    · rwa [Nat.zero_add, List.getElem?_toArray]
    · rw [List.size_toArray, Code.length_cells]

theorem countdown_implements :
    ∃ program, compile "read ,[.-]" = .ok program ∧ program.Implements
      (.act .read (.loop (.act .write (.act .decrement .done)) .done)) := by
  have htext : Instruction.ofText "read ,[.-]" =
      [.read, .loopStart, .write, .decrement, .loopEnd] := by decide
  have hbalanced : Instruction.Balanced (Instruction.ofText "read ,[.-]") := by
    rw [htext]
    decide
  obtain ⟨-, program, hcompile, himplements⟩ := compile_implements hbalanced
  have hsize : program.size = 7 := by
    rw [compile, ← Instruction.ofText, htext] at hcompile
    rw [← Except.ok.inj hcompile]
    rfl
  exact ⟨program, hcompile, himplements (hsize ▸ by decide) _ htext.symm⟩

end Program

end TapeAir
