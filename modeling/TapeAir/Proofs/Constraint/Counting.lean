import TapeAir.Proofs.Constraint.Acceptance
/-! # Columns that count up

A column that starts at zero and from row to row stays or counts up by one cannot wrap around in a
matrix with fewer rows than the field has elements. Its representatives never fall, so the rows of
one value stand together.
-/
namespace TapeAir

/-- The column starts at zero and stays or counts up, in too few rows to wrap around. -/
structure CountsUp {ρ : Type} (column : ρ → Goldilocks) (rows : List ρ) : Prop where
  starts : ∀ r, rows[0]? = some r → column r = 0
  steps : ∀ i r s, rows[i]? = some r → rows[i + 1]? = some s →
    column s = column r ∨ column s = column r + 1
  short : rows.length < Goldilocks.modulus

namespace CountsUp
variable {ρ : Type} {column : ρ → Goldilocks} {rows : List ρ} (h : CountsUp column rows)
include h

theorem val_le {i : ℕ} {r : ρ} (hr : rows[i]? = some r) : (column r).val ≤ i := by
  induction i generalizing r with
  | zero => simp [h.starts r hr, Goldilocks.val_zero]
  | succ i ih =>
    obtain ⟨q, hq⟩ := exists_row_of_le (Nat.le_succ i) hr
    have hle := ih hq
    rcases h.steps i q r hq hr with he | he
    · rw [he]
      omega
    · rw [he, Goldilocks.val_add, Goldilocks.val_one]
      exact (Nat.mod_le _ _).trans (by omega)

theorem val_step {i : ℕ} {r s : ρ} (hr : rows[i]? = some r) (hs : rows[i + 1]? = some s) :
    (column s).val = (column r).val ∨ (column s).val = (column r).val + 1 := by
  have hle := h.val_le hr
  have hlt := (List.getElem?_eq_some_iff.mp hs).1.trans h.short
  refine (h.steps i r s hr hs).imp (fun he => by rw [he]) fun he => ?_
  rw [he, Goldilocks.val_add, Goldilocks.val_one, Nat.mod_eq_of_lt (by omega)]

theorem val_mono {i j : ℕ} {r s : ρ} (hij : i ≤ j) (hr : rows[i]? = some r)
    (hs : rows[j]? = some s) : (column r).val ≤ (column s).val := by
  induction j, hij using Nat.le_induction generalizing s with
  | base => rw [Option.some.inj (hr.symm.trans hs)]
  | succ j _ ih =>
    obtain ⟨q, hq⟩ := exists_row_of_le (Nat.le_succ j) hs
    have := h.val_step hq hs
    have := ih hq
    omega

theorem exists_val {j a : ℕ} {s : ρ} (hs : rows[j]? = some s) (ha : a ≤ (column s).val) :
    ∃ r ∈ rows, (column r).val = a := by
  induction j generalizing s with
  | zero =>
    have hzero := congrArg Goldilocks.val (h.starts s hs)
    rw [Goldilocks.val_zero] at hzero
    exact ⟨s, List.mem_of_getElem? hs, by omega⟩
  | succ j ih =>
    obtain ⟨q, hq⟩ := exists_row_of_le (Nat.le_succ j) hs
    by_cases hqa : a ≤ (column q).val
    · exact ih hq hqa
    · have hstep := h.val_step hq hs
      exact ⟨s, List.mem_of_getElem? hs, by omega⟩

theorem pairwise_val : rows.Pairwise fun r s => (column r).val ≤ (column s).val := by
  rw [List.pairwise_iff_getElem]
  intro i j hi hj hij
  exact h.val_mono hij.le (List.getElem?_eq_getElem hi) (List.getElem?_eq_getElem hj)

theorem exists_iff {s : ρ} (hs : rows.getLast? = some s) (x : Goldilocks) :
    (∃ r ∈ rows, column r = x) ↔ x.val ≤ (column s).val := by
  rw [List.getLast?_eq_getElem?] at hs
  constructor
  · rintro ⟨r, hr, rfl⟩
    obtain ⟨i, hi⟩ := List.mem_iff_getElem?.mp hr
    have hlt := (List.getElem?_eq_some_iff.mp hi).1
    exact h.val_mono (by omega) hi hs
  · intro hx
    obtain ⟨r, hr, hrx⟩ := h.exists_val hs hx
    exact ⟨r, hr, Goldilocks.ext hrx⟩

/-- The rows of one value stand together. -/
theorem eq_between {i k j : ℕ} {r q s : ρ} (hik : i ≤ k) (hkj : k ≤ j) (hr : rows[i]? = some r)
    (hq : rows[k]? = some q) (hs : rows[j]? = some s) (he : column r = column s) :
    column q = column r := by
  have h1 := h.val_mono hik hr hq
  have h2 := h.val_mono hkj hq hs
  rw [← he] at h2
  exact Goldilocks.ext (le_antisymm h2 h1)

end CountsUp

end TapeAir
