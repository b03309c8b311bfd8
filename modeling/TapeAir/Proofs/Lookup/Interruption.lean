import TapeAir.Proofs.Lookup.Order
import TapeAir.Proofs.Machine.Lawful
/-! # Where an accepted run may break off

The processor constraints are switched off at idle rows, and idle rows do not enter the instruction
argument. So an accepted trace keeps to the stored program from one row with an instruction to the
next, but at an idle row it may stop although the program goes on, and after it the trace may go on
anywhere.
-/
namespace TapeAir.Trace

structure FirstIdle (t : Trace) (n : ℕ) (r : Register Goldilocks) : Prop where
  row : t[n]? = some r
  idle : r.currentInstruction = 0
  before : ∀ (m : ℕ) (q : Register Goldilocks), m < n → t[m]? = some q → q.currentInstruction ≠ 0

/-- A trace that is not resumed after an idle row, and first idles where the matrix stores no
instruction. -/
structure RunsOut (t : Trace) (rows : List (InstructionRow Goldilocks)) : Prop where
  not_resumed : ∀ (m n : ℕ) (r s : Register Goldilocks), m < n → t[m]? = some r →
    t[n]? = some s → r.currentInstruction = 0 → s.currentInstruction = 0
  not_cut : ∀ (n : ℕ) (r : Register Goldilocks), t.FirstIdle n r → ∀ q ∈ rows,
    q.address = r.instructionPointer → q.currentInstruction = 0

/-- A trace that leaves the stored program at idle rows only. -/
structure BreaksAtIdleRows (t : Trace) (rows : List (InstructionRow Goldilocks)) : Prop where
  /-- At the address of a row with an instruction the matrix stores that instruction alone. -/
  fetches : ∀ r ∈ t, r.currentInstruction ≠ 0 → ∀ q : InstructionRow Goldilocks,
    q ∈ rows ∧ q.address = r.instructionPointer ↔
      q = ⟨r.instructionPointer, r.currentInstruction, r.nextInstruction⟩
  leads : ∀ (n : ℕ) (r s : Register Goldilocks), t[n]? = some r → t[n + 1]? = some s →
    r.currentInstruction ≠ 0 →
    ∃ i : Instruction, r.currentInstruction = i.code ∧ Register.Leads i r s
  /-- The first idle row is at address zero, or where the row before it leads. -/
  stops : ∀ (n : ℕ) (s : Register Goldilocks), t.FirstIdle n s →
    n = 0 ∧ s.instructionPointer = 0 ∨
    ∃ (m : ℕ) (r : Register Goldilocks) (i : Instruction), n = m + 1 ∧ t[m]? = some r ∧
      r.currentInstruction = i.code ∧ s.instructionPointer = Register.target i r
  /-- Of an idle row and the row after it only the cycle and the inverse are checked. -/
  resumes : ∀ (n : ℕ) (r : Register Goldilocks), t[n]? = some r → r.currentInstruction = 0 →
    (∀ s, t[n + 1]? = some s → Register.Ticks r s) ∧
      ∀ s, Register.Ticks r s → ∀ x ∈ r.transition s, x = 0

theorem Lawful.stops {t : Trace} (h : Lawful t) {n : ℕ} {s : Register Goldilocks}
    (hs : t.FirstIdle n s) :
    n = 0 ∧ s.instructionPointer = 0 ∨
    ∃ (m : ℕ) (r : Register Goldilocks) (i : Instruction), n = m + 1 ∧ t[m]? = some r ∧
      r.currentInstruction = i.code ∧ s.instructionPointer = Register.target i r := by
  cases n with
  | zero => exact .inl ⟨rfl, (h.starts s hs.row).2.1⟩
  | succ m =>
    obtain ⟨r, hr⟩ := exists_row_of_le (Nat.le_succ m) hs.row
    have hactive := hs.before m r (Nat.lt_succ_self m) hr
    obtain ⟨i, hi⟩ := (h.coded r (List.mem_of_getElem? hr)).resolve_left hactive
    exact .inr ⟨m, r, i, rfl, hr, hi, (h.leads m r s i hr hs.row hi).instructionPointer⟩

/-- Let the processor and the instruction constraints accept a trace and a matrix with the same
lookups, neither longer than the field. Then the trace leaves the stored program at idle rows
only. -/
theorem breaksAtIdleRows_of_accepts {t : Trace} {rows : List (InstructionRow Goldilocks)}
    (ht : Kind.processor.Accepts (t.map Register.toList))
    (hrows : Kind.instruction.Accepts (rows.map InstructionRow.toList)) (hcoded : t.Coded)
    (hshort : rows.length < Goldilocks.modulus)
    (hsame : t.lookups = InstructionRow.lookups rows) : t.BreaksAtIdleRows rows := by
  have hlawful := Lawful.of_accepts ht hcoded
  have hordered := InstructionRow.Ordered.of_accepts hrows hshort
  refine ⟨?_, ?_, ?_, ?_⟩
  · intro r hr hactive
    exact fetches_of_lookups_eq hordered hsame hr hactive
  · intro n r s hr hs hactive
    obtain ⟨i, hi⟩ := (hcoded r (List.mem_of_getElem? hr)).resolve_left hactive
    exact ⟨i, hi, hlawful.leads n r s i hr hs hi⟩
  · intro n s hs
    exact hlawful.stops hs
  · intro n r hr hidle
    exact ⟨fun s hs => hlawful.ticks n r s hr hs,
      fun s hticks => (Register.transition_eq_zero_iff_of_idle hidle).mpr hticks⟩

def interrupted : Trace :=
  [⟨0, 0, Instruction.increment.code, Instruction.increment.code, 0, 0, 0⟩,
    ⟨1, 1, 0, 0, 0, 1, 1⟩,
    ⟨(2 : ℕ), (2 : ℕ), Instruction.write.code, 0, 0, 1, 1⟩,
    ⟨(3 : ℕ), (3 : ℕ), 0, 0, 0, 1, 1⟩]

def interruptedRows : List (InstructionRow Goldilocks) :=
  [⟨0, Instruction.increment.code, Instruction.increment.code⟩,
    ⟨0, Instruction.increment.code, Instruction.increment.code⟩,
    ⟨1, Instruction.increment.code, Instruction.write.code⟩,
    ⟨(2 : ℕ), Instruction.write.code, 0⟩,
    ⟨(2 : ℕ), Instruction.write.code, 0⟩]

theorem interrupted_accepts : Kind.processor.Accepts (interrupted.map Register.toList) := by
  refine (Register.layout.accepts_iff interrupted).mpr ⟨?_, _, rfl, ?_⟩
  · simp only [interrupted, List.isChain_cons_cons, List.isChain_singleton, and_true]
    refine ⟨?_, ?_, ?_⟩
    · refine (Register.transition_eq_zero_iff_of_code (i := .increment) rfl).mpr
        ⟨⟨?_, ?_⟩, ⟨?_, ?_, ?_⟩⟩
      all_goals simp [Register.target, Register.moved, Register.settled?]
    · refine (Register.transition_eq_zero_iff_of_idle rfl).mpr ⟨?_, ?_⟩
      all_goals simp [one_add_one_eq_two]
    · refine (Register.transition_eq_zero_iff_of_code (i := .write) rfl).mpr
        ⟨⟨?_, ?_⟩, ⟨?_, ?_, ?_⟩⟩
      all_goals simp [Register.target, Register.moved, Register.settled?, two_add_one_eq_three]
  · simp [Register.layout, Register.boundary]

theorem interruptedRows_accepts :
    Kind.instruction.Accepts (interruptedRows.map InstructionRow.toList) := by
  refine (InstructionRow.layout.accepts_iff interruptedRows).mpr ⟨?_, _, rfl, ?_⟩
  · simp [interruptedRows, InstructionRow.layout, InstructionRow.transition, sub_sub,
      one_add_one_eq_two]
  · simp [InstructionRow.layout, InstructionRow.boundary]

theorem interrupted_coded : interrupted.Coded := by
  simp only [Coded, interrupted, List.forall_mem_cons]
  exact ⟨.inr ⟨_, rfl⟩, .inl trivial, .inr ⟨_, rfl⟩, .inl trivial, by simp⟩

theorem interrupted_lookups :
    interrupted.lookups = InstructionRow.lookups interruptedRows := by decide

/-- It first idles at address one, where an increment is stored, and goes on at address two. -/
theorem interrupted_breaksAtIdleRows :
    interrupted.BreaksAtIdleRows interruptedRows ∧
      interrupted.FirstIdle 1 ⟨1, 1, 0, 0, 0, 1, 1⟩ ∧
      ⟨1, Instruction.increment.code, Instruction.write.code⟩ ∈ interruptedRows ∧
      interrupted[2]? = some ⟨(2 : ℕ), (2 : ℕ), Instruction.write.code, 0, 0, 1, 1⟩ := by
  refine ⟨breaksAtIdleRows_of_accepts interrupted_accepts interruptedRows_accepts
    interrupted_coded (by decide) interrupted_lookups, ⟨rfl, rfl, ?_⟩, by decide, rfl⟩
  intro m q hm hq
  obtain rfl : m = 0 := by omega
  exact Option.some.inj hq ▸ Instruction.increment.code_cast_ne_zero

theorem not_runsOut_of_accepts :
    ¬∀ (t : Trace) (rows : List (InstructionRow Goldilocks)),
      Kind.processor.Accepts (t.map Register.toList) →
      Kind.instruction.Accepts (rows.map InstructionRow.toList) → t.Coded →
      List.length t < Goldilocks.modulus → rows.length < Goldilocks.modulus →
      t.lookups = InstructionRow.lookups rows → t.RunsOut rows := by
  intro h
  have hrunsOut := h interrupted interruptedRows interrupted_accepts interruptedRows_accepts
    interrupted_coded (by decide) (by decide) interrupted_lookups
  exact absurd (hrunsOut.not_resumed 1 2 _ _ (Nat.lt_succ_self 1) rfl rfl rfl) (by decide)

end TapeAir.Trace
