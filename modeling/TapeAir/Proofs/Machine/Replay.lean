import TapeAir.Proofs.Machine.Record
/-! # A trace replays its program

The trace of a run that ends can be followed with the program and the input alone. Every row but the
last shows the cell at its address, every row the value last written to its pointer, where a read
writes the next symbol of the input, and each row is followed by the one to which its instruction
leads.
-/
namespace TapeAir

def Register.writes? (r : Register Goldilocks) (symbol : Option Goldilocks) : Option Goldilocks :=
  if r.executes .increment then some (r.memoryValue + 1)
  else if r.executes .decrement then some (r.memoryValue - 1)
  else if r.executes .read then symbol
  else none

namespace Trace

def readsBefore (t : Trace) (n : ℕ) : ℕ := (t.take n).countP (·.executes .read)

/-- The value most recently written to a pointer by the rows before row `n`, and zero if there is
none. The rows that read take the symbols of the input in order. -/
def latestValue (t : Trace) (input : List Goldilocks) (pointer : Goldilocks) : ℕ → Goldilocks
  | 0 => 0
  | n + 1 =>
    match t[n]? with
    | some r =>
      if r.memoryPointer = pointer then
        (r.writes? input[t.readsBefore n]?).getD (latestValue t input pointer n)
      else latestValue t input pointer n
    | none => latestValue t input pointer n

structure Replays (t : Trace) (program : Program) (input : List Goldilocks) : Prop where
  starts : ∃ r ∈ List.head? t, r.instructionPointer = 0 ∧ r.memoryPointer = 0
  cycle : ∀ (n : ℕ) (r : Register Goldilocks), t[n]? = some r → r.cycle = n
  fetches : ∀ (n : ℕ) (r : Register Goldilocks), t[n]? = some r → n + 1 < List.length t →
    ∃ i : Instruction, program[r.instructionPointer.val]? = some (i.code : Goldilocks) ∧
      r.currentInstruction = i.code ∧
      r.nextInstruction = program[r.instructionPointer.val + 1]?.getD 0
  ends : ∀ r ∈ List.getLast? t, r.currentInstruction = 0 ∧ r.nextInstruction = 0 ∧
    program.size ≤ r.instructionPointer.val
  value : ∀ (n : ℕ) (r : Register Goldilocks), t[n]? = some r →
    r.memoryValue = t.latestValue input r.memoryPointer n
  /-- A row that reads finds an unread symbol. -/
  reads : ∀ (n : ℕ) (r : Register Goldilocks), t[n]? = some r → r.executes .read →
    t.readsBefore n < input.length
  inverse : ∀ r ∈ t, r.memoryValueInverse = r.memoryValue⁻¹
  leads : ∀ (n : ℕ) (r s : Register Goldilocks) (i : Instruction), t[n]? = some r →
    t[n + 1]? = some s → r.currentInstruction = i.code → Register.Leads i r s
  /-- Two consecutive rows show a machine before and after a cycle. -/
  steps : ∀ (n : ℕ) (r s : Register Goldilocks), t[n]? = some r → t[n + 1]? = some s →
    ∃ (i : Instruction) (m m' : Machine), Machine.Executes program i m m' ∧
      r = m.snapshot program ∧ s = m'.snapshot program

end Trace

namespace Machine
variable {program : Program} {m n : Machine} {i : Instruction}

structure Proceeds (program : Program) (i : Instruction) (m n : Machine) : Prop where
  address : n.instructionPointer = m.instructionPointer + 1 ∨
    n.instructionPointer = m.instructionPointer + 2 ∨
    ∃ x : Goldilocks, program[m.instructionPointer + 1]? = some x ∧ n.instructionPointer = x.val
  read : i = .read → m.input = n.value :: n.input
  unread : i ≠ .read → n.input = m.input

theorem Proceeds.of_unread (hne : i ≠ .read) (hinput : n.input = m.input)
    (haddress : n.instructionPointer = m.instructionPointer + 1 ∨
      n.instructionPointer = m.instructionPointer + 2 ∨
      ∃ x : Goldilocks, program[m.instructionPointer + 1]? = some x ∧
        n.instructionPointer = x.val) : Proceeds program i m n :=
  ⟨haddress, fun hread => absurd hread hne, fun _ => hinput⟩

theorem Executes.proceeds (h : Executes program i m n) : Proceeds program i m n := by
  have hresult := h.result
  cases i with
  | left | right | increment | decrement | write =>
    obtain rfl := Except.ok.inj hresult
    exact .of_unread (by decide) rfl (.inl rfl)
  | loopStart =>
    rw [execute] at hresult
    split at hresult
    · obtain ⟨x, hx, rfl⟩ := jump_eq hresult
      exact .of_unread (by decide) rfl (.inr (.inr ⟨x, hx, rfl⟩))
    · obtain rfl := Except.ok.inj hresult
      exact .of_unread (by decide) rfl (.inr (.inl rfl))
  | loopEnd =>
    rw [execute] at hresult
    split at hresult
    · obtain rfl := Except.ok.inj hresult
      exact .of_unread (by decide) rfl (.inr (.inl rfl))
    · obtain ⟨x, hx, rfl⟩ := jump_eq hresult
      exact .of_unread (by decide) rfl (.inr (.inr ⟨x, hx, rfl⟩))
  | read =>
    rw [execute] at hresult
    split at hresult
    · cases hresult
    · next v rest hinput =>
      obtain rfl := Except.ok.inj hresult
      refine ⟨.inl rfl, fun _ => ?_, fun hne => absurd rfl hne⟩
      rw [hinput]
      simp [value, advance, goto, store, Tape.read_write]

theorem Executes.address_lt (h : Executes program i m n)
    (hsize : program.size + 2 ≤ Goldilocks.modulus) :
    n.instructionPointer < Goldilocks.modulus := by
  have hlt := (Array.getElem?_eq_some_iff.mp h.cell).1
  rcases h.proceeds.address with hn | hn | ⟨x, -, hn⟩
  · omega
  · omega
  · exact hn ▸ x.val_lt

end Machine

namespace Trace

theorem readsBefore_succ {t : Trace} {n : ℕ} {r : Register Goldilocks} (hr : t[n]? = some r) :
    t.readsBefore (n + 1) = t.readsBefore n + if r.executes .read then 1 else 0 := by
  rw [readsBefore, List.take_add_one, hr, List.countP_append, Option.toList_some,
    List.countP_singleton, readsBefore]

/-- Where the row after a read shows the next symbol of the input, that symbol was written. -/
theorem latestValue_eq_latestWrite {t : Trace} {input : List Goldilocks}
    (hreads : ∀ (n : ℕ) (r s : Register Goldilocks), t[n]? = some r → t[n + 1]? = some s →
      r.executes .read → input[t.readsBefore n]? = some s.memoryValue)
    (pointer : Goldilocks) {n : ℕ} (hn : n < List.length t) :
    t.latestValue input pointer n = t.latestWrite pointer n := by
  induction n with
  | zero => rfl
  | succ n ih =>
    have hr : t[n]? = some t[n] := List.getElem?_eq_getElem (by omega)
    have hs : t[n + 1]? = some t[n + 1] := List.getElem?_eq_getElem hn
    have hwrites : t[n].writes? input[t.readsBefore n]? = t[n].written? t[n + 1] := by
      by_cases hread : t[n].executes .read
      · rw [hreads n _ _ hr hs hread]
        rfl
      · simp [Register.writes?, Register.written?, hread]
    rw [latestWrite_succ hr hs, ← hwrites, ← ih (by omega), latestValue, hr]

namespace Records
variable {program : Program} {input : List Goldilocks} {states : List Machine} {t : Trace}
variable (h : Records program input states t)
include h

theorem input_eq_drop {n : ℕ} {m : Machine} (hm : states[n]? = some m) :
    m.input = input.drop (t.readsBefore n) := by
  induction n generalizing m with
  | zero =>
    rw [h.state_zero hm]
    rfl
  | succ n ih =>
    obtain ⟨k, hk⟩ := exists_row_of_le (Nat.le_succ n) hm
    obtain ⟨i, hi⟩ := h.executes_succ hk hm
    have hread := Register.executes_iff hi.snapshot_current .read
    rw [readsBefore_succ (h.row_eq hk)]
    by_cases hir : i = .read
    · rw [if_pos (hread.mpr hir), ← List.drop_drop, ← ih hk, hi.proceeds.read hir]
      rfl
    · rw [if_neg (hread.not.mpr hir), Nat.add_zero, ← ih hk, hi.proceeds.unread hir]

theorem symbol_eq {n : ℕ} {r s : Register Goldilocks} (hr : t[n]? = some r)
    (hs : t[n + 1]? = some s) (hread : r.executes .read) :
    input[t.readsBefore n]? = some s.memoryValue := by
  obtain ⟨m, hm, rfl⟩ := h.exists_state hr
  obtain ⟨m', hm', rfl⟩ := h.exists_state hs
  obtain ⟨i, hi⟩ := h.executes_succ hm hm'
  have hinput := hi.proceeds.read ((Register.executes_iff hi.snapshot_current .read).mp hread)
  rw [h.input_eq_drop hm] at hinput
  rw [← Nat.add_zero (t.readsBefore n), ← List.getElem?_drop, hinput]
  rfl

theorem symbol_lt {n : ℕ} {r : Register Goldilocks} (hr : t[n]? = some r)
    (hread : r.executes .read) : t.readsBefore n < input.length := by
  have hs := List.getElem?_eq_getElem (h.succ_lt_length hr hread)
  exact (List.getElem?_eq_some_iff.mp (h.symbol_eq hr hs hread)).1

theorem address_lt (hsize : program.size + 2 ≤ Goldilocks.modulus) {n : ℕ} {m : Machine}
    (hm : states[n]? = some m) : m.instructionPointer < Goldilocks.modulus := by
  cases n with
  | zero =>
    rw [h.state_zero hm]
    exact Goldilocks.modulus_pos
  | succ n =>
    obtain ⟨k, hk⟩ := exists_row_of_le (Nat.le_succ n) hm
    obtain ⟨i, hi⟩ := h.executes_succ hk hm
    exact hi.address_lt hsize

theorem ends (hsize : program.size + 2 ≤ Goldilocks.modulus) {r : Register Goldilocks}
    (hr : r ∈ List.getLast? t) :
    r.currentInstruction = 0 ∧ r.nextInstruction = 0 ∧
      program.size ≤ r.instructionPointer.val := by
  obtain ⟨l, hl, rfl⟩ := h.exists_final hr
  have hbehind := Array.getElem?_eq_none_iff.mp (h.halts l hl)
  rw [Option.mem_def, List.getLast?_eq_getElem?] at hl
  have hval : l.final.instructionPointer.val = l.instructionPointer :=
    Goldilocks.natCast_val_of_lt (h.address_lt hsize hl)
  exact ⟨rfl, rfl, hval ▸ hbehind⟩

theorem replays (hsize : program.size + 2 ≤ Goldilocks.modulus) : t.Replays program input := by
  have hlawful := h.lawful
  refine ⟨?_, ?_, ?_, ?_, ?_, ?_, ?_, hlawful.leads, ?_⟩
  · refine ⟨Machine.snapshot { input } program, ?_, Nat.cast_zero, rfl⟩
    rw [h.rows, List.head?_map, h.start]
    rfl
  · intro n r hr
    exact hlawful.cycle_eq hr
  · intro n r hr hn
    exact h.fetched (by omega) hr hn
  · intro r hr
    exact h.ends hsize hr
  · intro n r hr
    rw [latestValue_eq_latestWrite (fun n r s => h.symbol_eq) _
      (List.getElem?_eq_some_iff.mp hr).1]
    exact h.value_eq hr
  · intro n r hr hread
    exact h.symbol_lt hr hread
  · intro r hr
    exact h.inverse_eq hr
  · intro n r s hr hs
    obtain ⟨m, hm, rfl⟩ := h.exists_state hr
    obtain ⟨m', hm', rfl⟩ := h.exists_state hs
    obtain ⟨i, hi⟩ := h.executes_succ hm hm'
    exact ⟨i, m, m', hi, rfl, rfl⟩

end Records

end Trace

/-- The trace of a run that ends replays its program on its input. The two addresses right behind the
program must be field elements, as a cycle that does not jump goes no further than there. -/
theorem simulate_replays {fuel : ℕ} {program : Program} {input : List Goldilocks} {run : Run}
    (hsize : program.size + 2 ≤ Goldilocks.modulus)
    (hrun : simulate fuel program input = some (.ok run)) : run.trace.Replays program input := by
  obtain ⟨states, h⟩ := exists_records hrun
  exact h.replays hsize

theorem draining_replays :
    simulate 7 drain [(2 : ℕ)] = some (.ok draining) ∧
      draining.trace.Replays drain [(2 : ℕ)] :=
  ⟨simulate_draining, simulate_replays (by decide) simulate_draining⟩

end TapeAir
