import Mathlib.Data.List.InsertIdx
import TapeAir.Proofs.Memory.Derivation
/-! # Filling gaps in place

The gaps between sorted accesses can be filled by one walk down the rows: where the next row shares
the pointer but not the next cycle, a repetition of the present row is put between the two, and the
walk goes on from there. The rows grow while they are walked, so their number bounds nothing. But
every inserted row is one cycle closer to the next access, so the walk comes to its end, and it
leaves the interweaved rows.
-/
namespace TapeAir.MemoryRow

/-- Rows that are filled in place, and the place of the row at which the walk stands. -/
structure Walk where
  place : ℕ
  rows : List (MemoryRow Goldilocks)

namespace Walk

/-- Goes on to the next row, after inserting it if a cycle is missing. The last row has none. -/
def step? (w : Walk) : Option Walk :=
  match w.rows[w.place]?, w.rows[w.place + 1]? with
  | some r, some s =>
    if s.memoryPointer = r.memoryPointer ∧ s.cycle ≠ r.cycle + 1 then
      some ⟨w.place + 1, w.rows.insertIdx (w.place + 1) (r.repeated 1)⟩
    else some ⟨w.place + 1, w.rows⟩
  | _, _ => none

inductive Ends : Walk → List (MemoryRow Goldilocks) → Prop where
  | stop {w} : w.step? = none → Ends w w.rows
  | step {w next rows} : w.step? = some next → Ends next rows → Ends w rows

end Walk

section Repeats
variable {r s : MemoryRow Goldilocks}

theorem repeated_repeated (r : MemoryRow Goldilocks) (j k : ℕ) :
    (r.repeated j).repeated k = r.repeated (j + k) := by
  simp only [repeated, Nat.cast_add, add_assoc]

theorem repeats_succ' (r : MemoryRow Goldilocks) (n : ℕ) :
    r.repeats (n + 1) = r.repeated 1 :: (r.repeated 1).repeats n := by
  simp only [repeats, List.range_succ_eq_map, List.map_cons, List.map_map, Function.comp_def,
    repeated_repeated, Nat.succ_eq_add_one, Nat.zero_add, Nat.add_comm 1]

def missing (r s : MemoryRow Goldilocks) : ℕ := (s.cycle - r.cycle - 1).val

theorem missing_eq_zero_iff : missing r s = 0 ↔ s.cycle = r.cycle + 1 := by
  rw [missing, ← Goldilocks.val_zero, ← Goldilocks.ext_iff, sub_sub, sub_eq_zero]

/-- A repetition is one cycle closer to the next access. -/
theorem missing_repeated {n : ℕ} (h : missing r s = n + 1) : missing (r.repeated 1) s = n := by
  have hlt : n + 1 < Goldilocks.modulus := h ▸ Goldilocks.val_lt _
  have hgap : s.cycle - r.cycle - 1 = ((n + 1 : ℕ) : Goldilocks) := by
    rw [← h, missing, Goldilocks.natCast_val]
  have hnext : s.cycle - (r.cycle + ((1 : ℕ) : Goldilocks)) - 1 = (n : Goldilocks) := by
    push_cast at hgap ⊢
    linear_combination hgap
  rw [missing, repeated, hnext, Goldilocks.natCast_val_of_lt (by omega)]

theorem missing_of_val {n : ℕ} (h : s.cycle.val = r.cycle.val + (n + 1)) : missing r s = n := by
  have hn : n < Goldilocks.modulus := by
    have := s.cycle.val_lt
    omega
  have hgap : s.cycle - r.cycle - 1 = (n : Goldilocks) := by
    rw [← Goldilocks.natCast_val s.cycle, h, Nat.cast_add, Goldilocks.natCast_val]
    push_cast
    ring
  rw [missing, hgap, Goldilocks.natCast_val_of_lt hn]

variable {rest : List (MemoryRow Goldilocks)}

theorem interweave_of_next (h : s.memoryPointer = r.memoryPointer → s.cycle = r.cycle + 1) :
    interweave (r :: s :: rest) = r :: interweave (s :: rest) := by
  by_cases hp : s.memoryPointer = r.memoryPointer
  · have hnone : (s.cycle - r.cycle - 1).val = 0 := missing_eq_zero_iff.mpr (h hp)
    rw [interweave, gap_eq hp, hnone]
    rfl
  · rw [interweave, gap_eq_nil hp]
    rfl

theorem interweave_of_missing {n : ℕ} (hp : s.memoryPointer = r.memoryPointer)
    (h : missing r s = n + 1) :
    interweave (r :: s :: rest) = r :: interweave (r.repeated 1 :: s :: rest) := by
  have hrepeated : (s.cycle - (r.repeated 1).cycle - 1).val = n := missing_repeated h
  rw [missing] at h
  rw [interweave, interweave, gap_eq hp, gap_eq (r := r.repeated 1) hp, h, hrepeated, repeats_succ']
  rfl

end Repeats

namespace Walk
variable {done rest rows : List (MemoryRow Goldilocks)} {r s : MemoryRow Goldilocks}

theorem insertIdx_behind (done rest : List (MemoryRow Goldilocks)) (r q : MemoryRow Goldilocks) :
    (done ++ r :: rest).insertIdx (done.length + 1) q = done ++ r :: q :: rest := by
  induction done with
  | nil => rfl
  | cons p done ih => exact congrArg (p :: ·) ih

theorem step?_eq (done rest : List (MemoryRow Goldilocks)) (r s : MemoryRow Goldilocks) :
    (⟨done.length, done ++ r :: s :: rest⟩ : Walk).step? =
      if s.memoryPointer = r.memoryPointer ∧ s.cycle ≠ r.cycle + 1 then
        some ⟨(done ++ [r]).length, (done ++ [r]) ++ r.repeated 1 :: s :: rest⟩
      else some ⟨(done ++ [r]).length, (done ++ [r]) ++ s :: rest⟩ := by
  have hr : (done ++ r :: s :: rest)[done.length]? = some r := by simp
  have hs : (done ++ r :: s :: rest)[done.length + 1]? = some s := by simp
  simp only [step?, hr, hs, insertIdx_behind, List.length_append, List.length_singleton,
    List.append_assoc, List.singleton_append]

/-- If the walk from the next access ends, so does the walk from any row before it. The induction is
on the cycles that are missing between the two. -/
theorem ends_cons_cons
    (h : ∀ done : List (MemoryRow Goldilocks),
      Ends ⟨done.length, done ++ s :: rest⟩ (done ++ interweave (s :: rest)))
    (done : List (MemoryRow Goldilocks)) (r : MemoryRow Goldilocks) :
    Ends ⟨done.length, done ++ r :: s :: rest⟩ (done ++ interweave (r :: s :: rest)) := by
  have hstep := step?_eq done rest r s
  by_cases hnext : s.memoryPointer = r.memoryPointer → s.cycle = r.cycle + 1
  · rw [if_neg fun hmissing => hmissing.2 (hnext hmissing.1)] at hstep
    have hends := h (done ++ [r])
    rw [interweave_of_next hnext, List.append_cons done r (interweave (s :: rest))]
    exact .step hstep hends
  · obtain ⟨hp, hcycle⟩ := Classical.not_imp.mp hnext
    rw [if_pos ⟨hp, hcycle⟩] at hstep
    obtain ⟨n, hn⟩ := Nat.exists_eq_succ_of_ne_zero (missing_eq_zero_iff.not.mpr hcycle)
    rw [interweave_of_missing hp hn,
      List.append_cons done r (interweave (r.repeated 1 :: s :: rest))]
    have hcloser : missing (r.repeated 1) s < missing r s := by
      rw [missing_repeated hn, hn]
      exact Nat.lt_succ_self n
    exact .step hstep (ends_cons_cons h (done ++ [r]) (r.repeated 1))
termination_by missing r s

/-- Behind rows that are done, the walk fills the gaps of the others. -/
theorem ends_interweave (done rest : List (MemoryRow Goldilocks)) :
    Ends ⟨done.length, done ++ rest⟩ (done ++ interweave rest) := by
  induction rest generalizing done with
  | nil => exact .stop (by simp [step?])
  | cons r rest ih =>
    cases rest with
    | nil => exact .stop (by simp [step?])
    | cons s rest => exact ends_cons_cons ih done r

end Walk

end TapeAir.MemoryRow
