import TapeAir.Proofs.Machine.Record
/-! # The processor constraints are one step of the machine

At a row with an instruction the six transition constraints are zero exactly for the next rows to
which the instruction leads; at an idle row they ask for a tick and nothing more. What an
instruction leads to is what the machine does in a cycle, but for the memory value after a move of
the pointer or a read, which other arguments settle.
-/
namespace TapeAir

namespace Register

def ConstraintsVanish (r s : Register Goldilocks) : Prop :=
  ∀ c ∈ Kind.processor.baseTransition, c.evalList (r.toList ++ s.toList) = .ok 0

theorem constraintsVanish_iff (r s : Register Goldilocks) :
    ConstraintsVanish r s ↔ ∀ x ∈ r.transition s, x = 0 :=
  layout.evalList_iff r s

theorem constraintsVanish_iff_of_code {i : Instruction} {r s : Register Goldilocks}
    (hi : r.currentInstruction = i.code) : ConstraintsVanish r s ↔ Ticks r s ∧ Leads i r s := by
  rw [constraintsVanish_iff, transition_eq_zero_iff_of_code hi]

theorem constraintsVanish_iff_of_idle {r s : Register Goldilocks}
    (h : r.currentInstruction = 0) : ConstraintsVanish r s ↔ Ticks r s := by
  rw [constraintsVanish_iff, transition_eq_zero_iff_of_idle h]

theorem Leads.iff_agrees {i : Instruction} {r s u : Register Goldilocks} (h : Leads i r u) :
    Leads i r s ↔ s.instructionPointer = u.instructionPointer ∧
      s.memoryPointer = u.memoryPointer ∧
      ((settled? i r).isSome → s.memoryValue = u.memoryValue) := by
  constructor
  · intro hs
    refine ⟨hs.instructionPointer.trans h.instructionPointer.symm,
      hs.memoryPointer.trans h.memoryPointer.symm, ?_⟩
    intro hsome
    obtain ⟨v, hv⟩ := Option.isSome_iff_exists.mp hsome
    exact (hs.memoryValue v hv).trans (h.memoryValue v hv).symm
  · rintro ⟨hip, hmp, hmv⟩
    refine ⟨hip.trans h.instructionPointer, hmp.trans h.memoryPointer, ?_⟩
    intro v hv
    exact (hmv (Option.isSome_of_mem hv)).trans (h.memoryValue v hv)

end Register

namespace Machine
variable {program : Program} {m n : Machine} {i : Instruction}

theorem ticks_snapshot_iff (m : Machine) (program : Program) (s : Register Goldilocks) :
    Register.Ticks (m.snapshot program) s ↔ s.cycle = ((m.cycle + 1 : ℕ) : Goldilocks) := by
  have hcycle : ((m.cycle + 1 : ℕ) : Goldilocks) = (m.snapshot program).cycle + 1 := by
    push_cast
    rfl
  rw [hcycle]
  constructor
  · intro h
    exact h.cycle
  · intro h
    exact ⟨h, rfl⟩

/-- After the row of a cycle the constraints accept the rows that agree with the next machine. -/
theorem Executes.constraintsVanish_iff (h : Executes program i m n) (s : Register Goldilocks) :
    Register.ConstraintsVanish (m.snapshot program) s ↔
      s.cycle = (n.cycle : Goldilocks) ∧
      s.instructionPointer = (n.instructionPointer : Goldilocks) ∧
      s.memoryPointer = n.memoryPointer ∧
      ((Register.settled? i (m.snapshot program)).isSome → s.memoryValue = n.value) := by
  rw [Register.constraintsVanish_iff_of_code h.snapshot_current, ticks_snapshot_iff,
    ← h.after.cycle, h.leads.iff_agrees]
  rfl

end Machine

/-- The transition constraints of the processor table accept exactly the steps of the machine: after
a row with an instruction the rows to which it leads, after an idle row every row one cycle later,
and after the row of a cycle of the machine the rows that show where the machine then is. -/
theorem transition_constraints_iff_step :
    Kind.processor.baseTransition.length = 6 ∧
    (∀ (i : Instruction) (r s : Register Goldilocks), r.currentInstruction = i.code →
      (Register.ConstraintsVanish r s ↔ Register.Ticks r s ∧ Register.Leads i r s)) ∧
    (∀ r s : Register Goldilocks, r.currentInstruction = 0 →
      (Register.ConstraintsVanish r s ↔ Register.Ticks r s)) ∧
    ∀ (program : Program) (i : Instruction) (m n : Machine), Machine.Executes program i m n →
      ∀ s : Register Goldilocks, Register.ConstraintsVanish (m.snapshot program) s ↔
        s.cycle = (n.cycle : Goldilocks) ∧
        s.instructionPointer = (n.instructionPointer : Goldilocks) ∧
        s.memoryPointer = n.memoryPointer ∧
        ((Register.settled? i (m.snapshot program)).isSome → s.memoryValue = n.value) := by
  refine ⟨rfl, ?_, ?_, ?_⟩
  · intro i r s hi
    exact Register.constraintsVanish_iff_of_code hi
  · intro r s h
    exact Register.constraintsVanish_iff_of_idle h
  · intro program i m n h s
    exact h.constraintsVanish_iff s

/-- The program `[-]`, whose loop is not entered at the start. -/
def clearLoop : Program :=
  #[Instruction.loopStart.code, (5 : ℕ), Instruction.decrement.code, Instruction.loopEnd.code,
    (2 : ℕ)]

def behindLoop : Machine := { cycle := 1, instructionPointer := 5, input := [] }

/-- From the bracket to the end of the program is a step, into the loop is none, and the end of the
program is followed by any row one cycle later. -/
theorem clearLoop_steps :
    let start : Machine := { input := [] }
    Machine.Executes clearLoop .loopStart start behindLoop ∧
      Register.ConstraintsVanish (start.snapshot clearLoop) behindLoop.final ∧
      ¬Register.ConstraintsVanish (start.snapshot clearLoop)
        ⟨1, (2 : ℕ), Instruction.decrement.code, Instruction.loopEnd.code, 0, 0, 0⟩ ∧
      Register.ConstraintsVanish behindLoop.final ⟨(2 : ℕ), 0, 0, 0, 0, 0, 0⟩ := by
  obtain ⟨-, hcode, hidle, hmachine⟩ := transition_constraints_iff_step
  have hvalue : ({ input := [] } : Machine).value = 0 := Tape.read_empty 0
  have hexecutes : Machine.Executes clearLoop .loopStart { input := [] } behindLoop := by
    refine ⟨rfl, ?_⟩
    rw [Machine.execute, if_pos hvalue]
    rfl
  refine ⟨hexecutes, ?_, ?_, ?_⟩
  · exact (hmachine _ _ _ _ hexecutes _).mpr ⟨rfl, rfl, rfl, fun _ => rfl⟩
  · intro h
    have htarget := ((hcode .loopStart _ _ rfl).mp h).2.instructionPointer
    exact absurd (htarget.trans (if_pos hvalue)) (by decide)
  · refine (hidle _ _ rfl).mpr ⟨?_, ?_⟩
    · decide
    · rfl

end TapeAir
