import Mathlib.Data.List.Basic
import TapeAir.Field.Goldilocks
/-! # Sorting rows by a column

Rows are sorted by the representatives of one column, and the sort is stable: it leaves the rows of
each value in their order.
-/
namespace TapeAir

section Sorting
variable {ρ : Type} (column : ρ → Goldilocks)

def notAfter (r s : ρ) : Bool := (column r).val ≤ (column s).val

theorem notAfter_trans (r s u : ρ) :
    notAfter column r s → notAfter column s u → notAfter column r u := by
  simpa [notAfter] using Nat.le_trans

theorem notAfter_total (r s : ρ) : notAfter column r s || notAfter column s r := by
  simpa [notAfter] using Nat.le_total _ _

def sortBy (rows : List ρ) : List ρ := rows.mergeSort (notAfter column)

theorem sortBy_perm (rows : List ρ) : (sortBy column rows).Perm rows :=
  List.mergeSort_perm rows _

theorem mem_sortBy {rows : List ρ} {r : ρ} : r ∈ sortBy column rows ↔ r ∈ rows :=
  (sortBy_perm column rows).mem_iff

theorem sortBy_pairwise (rows : List ρ) :
    (sortBy column rows).Pairwise fun r s => (column r).val ≤ (column s).val :=
  (List.pairwise_mergeSort (notAfter_trans column) (notAfter_total column) rows).imp
    fun h => of_decide_eq_true h

/-- Sorting leaves the rows of each value in their order. -/
theorem filter_sortBy (rows : List ρ) (x : Goldilocks) :
    (sortBy column rows).filter (column · = x) = rows.filter (column · = x) := by
  have hequal : (rows.filter (column · = x)).Pairwise fun r s => notAfter column r s := by
    refine List.pairwise_of_forall_mem_list fun r hr s hs => ?_
    have hr' := of_decide_eq_true (List.mem_filter.mp hr).2
    have hs' := of_decide_eq_true (List.mem_filter.mp hs).2
    simp [notAfter, hr', hs']
  have hsub := (List.sublist_mergeSort (notAfter_trans column) (notAfter_total column) hequal
    List.filter_sublist).filter (column · = x)
  rw [List.filter_filter] at hsub
  simp only [Bool.and_self] at hsub
  exact (hsub.eq_of_length ((sortBy_perm column rows).filter _).length_eq.symm).symm

/-- In rows that are in order, those of the least value come before those of the others. -/
theorem filter_mem_cons {rows : List ρ}
    (h : rows.Pairwise fun r s => (column r).val ≤ (column s).val) {x : Goldilocks}
    {xs : List Goldilocks} (hx : ∀ y ∈ xs, x.val < y.val) :
    rows.filter (column · ∈ x :: xs) =
      rows.filter (column · = x) ++ rows.filter (column · ∈ xs) := by
  simp only [List.mem_cons]
  induction rows with
  | nil => rfl
  | cons r rows ih =>
    obtain ⟨hfirst, hrest⟩ := List.pairwise_cons.mp h
    have ih := ih hrest
    by_cases hmem : column r ∈ xs
    · -- from here on no row has the least value
      have hlt := hx _ hmem
      have hnone : rows.filter (column · = x) = [] := by
        rw [List.filter_eq_nil_iff]
        intro s hs hsx
        have hle := hfirst s hs
        rw [of_decide_eq_true hsx] at hle
        exact absurd hlt (Nat.not_lt.mpr hle)
      have hne : column r ≠ x := fun he => Nat.lt_irrefl _ (he ▸ hlt)
      simp only [List.filter_cons, decide_eq_true_eq, hmem, hne, or_true, if_true, if_false, ih,
        hnone, List.nil_append]
    · by_cases he : column r = x
      · have hnot : x ∉ xs := he ▸ hmem
        simp only [List.filter_cons, decide_eq_true_eq, he, hnot, true_or, if_true, if_false, ih,
          List.cons_append]
      · simp only [List.filter_cons, decide_eq_true_eq, he, hmem, or_self, if_false, ih]

theorem filter_mem_eq_flatMap {rows : List ρ}
    (h : rows.Pairwise fun r s => (column r).val ≤ (column s).val) {xs : List Goldilocks}
    (hxs : xs.Pairwise fun x y => x.val < y.val) :
    rows.filter (column · ∈ xs) = xs.flatMap fun x => rows.filter (column · = x) := by
  induction xs with
  | nil => simp
  | cons x xs ih =>
    obtain ⟨hx, hxs⟩ := List.pairwise_cons.mp hxs
    rw [filter_mem_cons column h hx, ih hxs, List.flatMap_cons]

theorem sortBy_eq_flatMap {rows : List ρ} {xs : List Goldilocks}
    (hxs : xs.Pairwise fun x y => x.val < y.val) (h : ∀ r ∈ rows, column r ∈ xs) :
    sortBy column rows = xs.flatMap fun x => rows.filter (column · = x) := by
  have hall : (sortBy column rows).filter (column · ∈ xs) = sortBy column rows := by
    rw [List.filter_eq_self]
    intro r hr
    exact decide_eq_true (h r ((mem_sortBy column).mp hr))
  rw [← hall, filter_mem_eq_flatMap column (sortBy_pairwise column rows) hxs]
  exact List.flatMap_congr fun x _ => filter_sortBy column rows x

/-- If the values lie below a bound, they can be taken one by one. -/
theorem sortBy_eq_flatMap_range {rows : List ρ} {n : ℕ} (hn : n ≤ Goldilocks.modulus)
    (h : ∀ r ∈ rows, (column r).val < n) :
    sortBy column rows =
      (List.range n).flatMap fun i : ℕ => rows.filter (column · = (i : Goldilocks)) := by
  have hxs : ((List.range n).map fun i : ℕ => (i : Goldilocks)).Pairwise
      fun x y => x.val < y.val := by
    rw [List.pairwise_map]
    refine List.pairwise_lt_range.imp_of_mem fun {i j} hi hj hij => ?_
    rw [List.mem_range] at hi hj
    rwa [Goldilocks.val_natCast, Goldilocks.val_natCast, Nat.mod_eq_of_lt (by omega),
      Nat.mod_eq_of_lt (by omega)]
  rw [sortBy_eq_flatMap column hxs, List.flatMap_map]
  intro r hr
  exact List.mem_map.mpr ⟨_, List.mem_range.mpr (h r hr), Goldilocks.natCast_val _⟩

end Sorting

end TapeAir
