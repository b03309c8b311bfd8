import TapeAir.Constraint.Lookup
import TapeAir.Proofs.Field.Prime
/-! # What the instruction constraints say

Four products vanish between consecutive rows exactly when the address stays or counts up, a new
address has the instruction that was announced, and a repeated address repeats the whole row.
-/
namespace TapeAir.InstructionRow

structure Follows (r s : InstructionRow Goldilocks) : Prop where
  address : s.address = r.address ∨ s.address = r.address + 1
  announced : s.address ≠ r.address → s.currentInstruction = r.nextInstruction
  repeated : s.address = r.address → s = r

theorem transition_eq_zero_iff (r s : InstructionRow Goldilocks) :
    (∀ x ∈ r.transition s, x = 0) ↔ Follows r s := by
  simp only [transition, List.forall_mem_cons, List.not_mem_nil, false_implies, implies_true,
    and_true, mul_eq_zero, sub_eq_zero]
  constructor
  · rintro ⟨haddress, hannounced, hcurrent, hnext⟩
    refine ⟨haddress.symm.imp id sub_eq_iff_eq_add'.mp, ?_, ?_⟩
    · intro hne
      exact (hannounced.resolve_left hne).symm
    · intro he
      have hstay : ¬s.address - r.address = 1 := by
        rw [he, sub_self]
        exact zero_ne_one
      obtain ⟨a, c, n⟩ := r
      obtain ⟨a', c', n'⟩ := s
      obtain rfl : a' = a := he
      obtain rfl : c' = c := hcurrent.resolve_left hstay
      obtain rfl : n' = n := hnext.resolve_left hstay
      rfl
  · intro h
    by_cases he : s.address = r.address
    · obtain rfl := h.repeated he
      simp
    · have hup : s.address - r.address = 1 :=
        sub_eq_iff_eq_add'.mpr (h.address.resolve_left he)
      exact ⟨.inl hup, .inr (h.announced he).symm, .inl hup, .inl hup⟩

theorem boundary_eq_zero_iff (r : InstructionRow Goldilocks) :
    (∀ x ∈ r.boundary, x = 0) ↔ r.address = 0 := by
  simp [boundary]

end TapeAir.InstructionRow
