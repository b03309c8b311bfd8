import Mathlib.Tactic.LinearCombination
import TapeAir.Constraint.Memory
import TapeAir.Proofs.Field.Prime
/-! # What the memory constraints say

Six products vanish between consecutive rows exactly when the pointer stays or counts up, the cycle
counts up where the pointer stays, an interweaved row is followed by a row with its pointer and its
value, the second flag is zero or one, and a new pointer starts at zero. Nothing ties the value of
an interweaved row to the access before it.
-/
namespace TapeAir.MemoryRow

structure Follows (r s : MemoryRow Goldilocks) : Prop where
  pointer : s.memoryPointer = r.memoryPointer ∨ s.memoryPointer = r.memoryPointer + 1
  cycle : s.memoryPointer = r.memoryPointer → s.cycle = r.cycle + 1
  held_pointer : r.interweaved ≠ 0 → s.memoryPointer = r.memoryPointer
  held_value : r.interweaved ≠ 0 → s.memoryValue = r.memoryValue
  flag : s.interweaved = 0 ∨ s.interweaved = 1
  fresh : s.memoryPointer ≠ r.memoryPointer → s.memoryValue = 0

structure Starts (r : MemoryRow Goldilocks) : Prop where
  cycle : r.cycle = 0
  pointer : r.memoryPointer = 0
  value : r.memoryValue = 0

theorem transition_eq_zero_iff (r s : MemoryRow Goldilocks) :
    (∀ x ∈ r.transition s, x = 0) ↔ Follows r s := by
  simp only [transition, List.forall_mem_cons, List.not_mem_nil, false_implies, implies_true,
    and_true, mul_eq_zero, sub_eq_zero]
  constructor
  · rintro ⟨hp, hc, hi, hv, hf, hz⟩
    have hstep : ¬(s.memoryPointer - r.memoryPointer = 1 ∧ s.memoryPointer = r.memoryPointer) := by
      rintro ⟨h1, h2⟩
      rw [h2, sub_self] at h1
      exact zero_ne_one h1
    refine ⟨?_, ?_, ?_, ?_, hf, ?_⟩
    · exact hp.symm.imp id sub_eq_iff_eq_add'.mp
    · intro h
      exact sub_eq_iff_eq_add'.mp (hc.resolve_left fun h1 => hstep ⟨h1, h⟩)
    · exact hi.resolve_left
    · intro h
      exact (hv.resolve_left h).symm
    · exact hz.resolve_left
  · intro h
    have hup (hne : s.memoryPointer ≠ r.memoryPointer) : s.memoryPointer - r.memoryPointer = 1 :=
      sub_eq_iff_eq_add'.mpr (h.pointer.resolve_left hne)
    refine ⟨?_, ?_, ?_, ?_, h.flag, ?_⟩
    · exact (or_iff_not_imp_left.mpr hup).symm
    · by_cases hp : s.memoryPointer = r.memoryPointer
      · exact .inr (sub_eq_iff_eq_add'.mpr (h.cycle hp))
      · exact .inl (hup hp)
    · exact or_iff_not_imp_left.mpr h.held_pointer
    · exact or_iff_not_imp_left.mpr fun hi => (h.held_value hi).symm
    · exact or_iff_not_imp_left.mpr h.fresh

theorem boundary_eq_zero_iff (r : MemoryRow Goldilocks) :
    (∀ x ∈ r.boundary, x = 0) ↔ Starts r := by
  simp only [boundary, List.forall_mem_cons, List.not_mem_nil, false_implies, implies_true,
    and_true]
  exact ⟨fun h => ⟨h.1, h.2.1, h.2.2⟩, fun h => ⟨h.1, h.2, h.3⟩⟩

end TapeAir.MemoryRow
