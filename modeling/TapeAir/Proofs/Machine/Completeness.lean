import TapeAir.Proofs.Machine.Record
/-! # The processor table of a run

A run takes one step of the machine from row to row, and the rows that pad its trace idle where it
ended. So the processor table of every run that ends is accepted, whatever cells the program has and
wherever its pointers go.
-/
namespace TapeAir

theorem Register.isChain_filling {r : Register Goldilocks} (hidle : r.currentInstruction = 0)
    (hinverse : r.memoryValueInverse = r.memoryValue⁻¹) (n : ℕ) :
    (r :: filling.extra r n).IsChain fun r s => ∀ x ∈ r.transition s, x = 0 := by
  refine filling.isChain_extra ?_ ?_ n
  · refine (transition_eq_zero_iff_of_idle hidle).mpr ⟨?_, hinverse⟩
    simp [filling]
  · intro j
    refine (transition_eq_zero_iff_of_idle rfl).mpr ⟨?_, hinverse⟩
    simp only [filling]
    push_cast
    ring

namespace Trace.Records
variable {program : Program} {input : List Goldilocks} {states : List Machine} {t : Trace}
variable (h : Records program input states t)
include h

theorem boundary_eq_zero {r : Register Goldilocks} (hr : t[0]? = some r) :
    ∀ x ∈ r.boundary, x = 0 := by
  obtain ⟨hcycle, haddress, hpointer, hvalue⟩ := h.lawful.starts r hr
  have hinverse := h.inverse_eq (List.mem_of_getElem? hr)
  rw [hvalue, inv_zero] at hinverse
  simp [Register.boundary, hcycle, haddress, hpointer, hvalue, hinverse]

theorem accepts_append_filling {r : Register Goldilocks} (hlast : List.getLast? t = some r)
    (n : ℕ) :
    Kind.processor.Accepts ((t ++ Register.filling.extra r n).map Register.toList) := by
  refine (Register.layout.accepts_iff _).mpr ⟨?_, ?_⟩
  · refine (Register.filling.isChain_append_extra hlast n).mpr ⟨h.lawful.isChain, ?_⟩
    exact Register.isChain_filling (h.idle_last hlast)
      (h.inverse_eq (List.mem_of_getLast? hlast)) n
  · have hpos : 0 < List.length t := List.length_pos_iff.mpr h.ne_nil
    have hfirst : t[0]? = some t[0] := List.getElem?_eq_getElem hpos
    refine ⟨t[0], ?_, h.boundary_eq_zero hfirst⟩
    rw [Option.mem_def, List.head?_append, List.head?_eq_getElem?, hfirst]
    rfl

end Trace.Records

/-- The processor table of a run that ends can be made, and the processor constraints accept it: the
executed rows, the step to the last row, and the rows of padding. -/
theorem processor_table_complete {fuel : ℕ} {program : Program} {input : List Goldilocks}
    {run : Run} (hrun : simulate fuel program input = some (.ok run)) (d : Domain) :
    ∃ p, Table.ofTrace .processor run.trace program d = .ok p ∧
      p.matrix = (Register.filling.padded run.trace).map Register.toList ∧
      Kind.processor.Accepts p.matrix := by
  obtain ⟨states, h⟩ := exists_records hrun
  obtain ⟨p, hp, hmatrix⟩ :=
    Register.filling.exists_ofTrace h.ne_nil (Trace.derive_processor run.trace program) d
  obtain ⟨r, n, hlast, hpadded⟩ := Register.filling.exists_padded_eq h.ne_nil
  refine ⟨p, hp, hmatrix, ?_⟩
  rw [hmatrix, hpadded]
  exact h.accepts_append_filling hlast n

/-- The program `<-`, which leaves pointer zero to the left. -/
def leftDecrement : Program := #[Instruction.left.code, Instruction.decrement.code]

def belowZero : Run :=
  ⟨[⟨0, 0, Instruction.left.code, Instruction.decrement.code, 0, 0, 0⟩,
    ⟨1, 1, Instruction.decrement.code, 0, -1, 0, 0⟩,
    ⟨(2 : ℕ), (2 : ℕ), 0, 0, -1, -1, -1⟩], []⟩

theorem simulate_belowZero : simulate 3 leftDecrement [] = some (.ok belowZero) := by cbv

theorem belowZero_processor_table :
    simulate 3 leftDecrement [] = some (.ok belowZero) ∧
      ∃ p, Table.ofTrace .processor belowZero.trace leftDecrement ⟨2, 1, 1⟩ = .ok p ∧
        p.matrix = (Register.filling.padded belowZero.trace).map Register.toList ∧
        Kind.processor.Accepts p.matrix :=
  ⟨simulate_belowZero, processor_table_complete simulate_belowZero ⟨2, 1, 1⟩⟩

end TapeAir
