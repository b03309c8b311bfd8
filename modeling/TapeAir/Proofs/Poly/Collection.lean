import Mathlib.Algebra.BigOperators.Group.List.Basic
import Mathlib.Algebra.Group.Hom.Basic
import Mathlib.Algebra.Ring.Defs
import Mathlib.Data.List.Nodup
import TapeAir.Poly.Basic
/-! # Sums over terms

What a polynomial stands for, be it a value, a coefficient or an expansion, is a sum over its terms
of something additive in the coefficient. Such a sum does not notice how terms are collected. Terms
without zeros, each under a key of its own, are determined by the sums of the coefficients under
each key.
-/
namespace TapeAir

section Sums
variable {κ F A : Type} [AddCommMonoid F] [AddCommMonoid A] (φ : κ → F →+ A)

def termsSum (ts : List (κ × F)) : A := (ts.map fun t => φ t.1 t.2).sum

@[simp] theorem termsSum_nil : termsSum φ [] = 0 := rfl

@[simp] theorem termsSum_cons (t : κ × F) (ts : List (κ × F)) :
    termsSum φ (t :: ts) = φ t.1 t.2 + termsSum φ ts := by
  simp [termsSum]

@[simp] theorem termsSum_append (ss ts : List (κ × F)) :
    termsSum φ (ss ++ ts) = termsSum φ ss + termsSum φ ts := by
  simp [termsSum]

theorem termsSum_perm {ss ts : List (κ × F)} (h : ss.Perm ts) : termsSum φ ss = termsSum φ ts :=
  (h.map _).sum_eq

theorem termsSum_map {κ' : Type} (f : κ' → κ) (ts : List (κ' × F)) :
    termsSum φ (ts.map fun t => (f t.1, t.2)) = termsSum (fun k => φ (f k)) ts := by
  simp [termsSum, Function.comp_def]

theorem termsSum_filter [DecidableEq F] (ts : List (κ × F)) :
    termsSum φ (ts.filter fun t => t.2 ≠ 0) = termsSum φ ts := by
  induction ts with
  | nil => rfl
  | cons t ts ih =>
    by_cases ht : t.2 = 0
    · simpa [ht] using ih
    · simpa [ht] using congrArg (φ t.1 t.2 + ·) ih

end Sums

theorem termsSum_neg {κ F A : Type} [AddCommGroup F] [AddCommGroup A] (φ : κ → F →+ A)
    (ts : List (κ × F)) : termsSum φ (ts.map fun t => (t.1, -t.2)) = -termsSum φ ts := by
  induction ts with
  | nil => simp
  | cons t ts ih => simp [ih, add_comm]

section Coefficient
variable {κ F : Type} [DecidableEq κ] [AddCommMonoid F]

def coefficientAt (k : κ) : κ → F →+ F := fun j => if j = k then .id F else 0

@[simp] theorem coefficientAt_self (k : κ) (c : F) : coefficientAt k k c = c := by
  simp [coefficientAt]

theorem coefficientAt_of_ne {j k : κ} (h : j ≠ k) (c : F) : coefficientAt k j c = 0 := by
  simp [coefficientAt, h]

def total (k : κ) (ts : List (κ × F)) : F := termsSum (coefficientAt k) ts

theorem total_eq_zero {k : κ} {ts : List (κ × F)} (h : k ∉ ts.map Prod.fst) : total k ts = 0 := by
  induction ts with
  | nil => rfl
  | cons t ts ih =>
    rw [List.map_cons, List.mem_cons, not_or] at h
    rw [total, termsSum_cons, coefficientAt_of_ne (Ne.symm h.1), zero_add]
    exact ih h.2

structure Trimmed (ts : List (κ × F)) : Prop where
  keys : (ts.map Prod.fst).Nodup
  nonzero : ∀ t ∈ ts, t.2 ≠ 0

theorem total_eq_of_mem {k : κ} {c : F} {ts : List (κ × F)} (hkeys : (ts.map Prod.fst).Nodup)
    (h : (k, c) ∈ ts) : total k ts = c := by
  induction ts with
  | nil => cases h
  | cons t ts ih =>
    obtain ⟨hfresh, hkeys⟩ := List.nodup_cons.mp hkeys
    rcases List.mem_cons.mp h with rfl | h
    · have hrest : termsSum (coefficientAt k) ts = 0 := total_eq_zero hfresh
      rw [total, termsSum_cons, coefficientAt_self, hrest, add_zero]
    · have hne : t.1 ≠ k := fun he => hfresh (he ▸ List.mem_map_of_mem h)
      rw [total, termsSum_cons, coefficientAt_of_ne hne, zero_add]
      exact ih hkeys h

namespace Trimmed
variable {ss ts : List (κ × F)}

theorem mem_iff (h : Trimmed ts) {k : κ} {c : F} : (k, c) ∈ ts ↔ c ≠ 0 ∧ total k ts = c := by
  constructor
  · exact fun hmem => ⟨h.nonzero _ hmem, total_eq_of_mem h.keys hmem⟩
  · rintro ⟨hc, htotal⟩
    by_cases hk : k ∈ ts.map Prod.fst
    · obtain ⟨⟨j, d⟩, ht, rfl⟩ := List.mem_map.mp hk
      rwa [← htotal, total_eq_of_mem h.keys ht]
    · exact absurd (htotal.symm.trans (total_eq_zero hk)) hc

theorem mem_keys_iff (h : Trimmed ts) {k : κ} : k ∈ ts.map Prod.fst ↔ total k ts ≠ 0 := by
  constructor
  · intro hk
    obtain ⟨t, ht, rfl⟩ := List.mem_map.mp hk
    rw [total_eq_of_mem h.keys ht]
    exact h.nonzero t ht
  · exact fun hne => by_contra fun hk => hne (total_eq_zero hk)

/-- Looking up a key finds its total, unless that is zero. -/
theorem lookup_eq [BEq κ] [LawfulBEq κ] [DecidableEq F] (h : Trimmed ts) (k : κ) :
    ts.lookup k = if total k ts = 0 then none else some (total k ts) := by
  by_cases hk : total k ts = 0
  · rw [if_pos hk, List.lookup_eq_none_iff]
    intro t ht
    have hne : k ≠ t.1 := by
      rintro rfl
      exact h.mem_keys_iff.mp (List.mem_map_of_mem ht) hk
    simpa using hne
  · rw [if_neg hk]
    have hmem : (k, total k ts) ∈ ts := h.mem_iff.mpr ⟨hk, rfl⟩
    obtain ⟨before, behind, hts⟩ := List.append_of_mem hmem
    refine List.lookup_eq_some_iff.mpr ⟨before, behind, hts, fun t ht => ?_⟩
    have hkeys := h.keys
    rw [hts, List.map_append, List.map_cons] at hkeys
    have hne := (List.nodup_append.mp hkeys).2.2 t.1 (List.mem_map_of_mem ht) k
      List.mem_cons_self
    simpa using hne.symm

theorem lookup_eq_iff [BEq κ] [LawfulBEq κ] [DecidableEq F] (hs : Trimmed ss) (ht : Trimmed ts)
    (k : κ) : ss.lookup k = ts.lookup k ↔ total k ss = total k ts := by
  rw [hs.lookup_eq, ht.lookup_eq]
  by_cases h : total k ss = 0 <;> by_cases h' : total k ts = 0
  · simp [h, h']
  · simp [h, h', Ne.symm h']
  · simp [h, h']
  · simp [h, h']

/-- The totals determine the terms up to their order. -/
theorem perm_iff (hs : Trimmed ss) (ht : Trimmed ts) :
    ss.Perm ts ↔ ∀ k, total k ss = total k ts := by
  constructor
  · exact fun h k => termsSum_perm _ h
  · intro h
    rw [List.perm_ext_iff_of_nodup (List.Nodup.of_map _ hs.keys) (List.Nodup.of_map _ ht.keys)]
    rintro ⟨k, c⟩
    rw [hs.mem_iff, ht.mem_iff, h k]

end Trimmed

end Coefficient

namespace Poly

section Collection
variable {F A : Type} [AddCommMonoid F] [DecidableEq F] [AddCommMonoid A] {n : ℕ}
variable (φ : Monomial n → F →+ A)

/-- Collecting a term into a sorted list adds its amount, also where a coefficient vanishes. -/
theorem termsSum_insertTerm (m : Monomial n) (c : F) (ts : List (Term F n)) :
    termsSum φ (insertTerm m c ts) = φ m c + termsSum φ ts := by
  induction ts with
  | nil =>
    by_cases hc : c = 0
    · simp [insertTerm, hc]
    · simp [insertTerm, hc]
  | cons head rest ih =>
    obtain ⟨k, d⟩ := head
    simp only [insertTerm]
    cases hk : compare m k with
    | lt =>
      by_cases hc : c = 0
      · simp [hc]
      · simp [hc]
    | eq =>
      have hm : m = k := Std.LawfulEqCmp.eq_of_compare hk
      subst hm
      have hsum : φ m (d + c) + termsSum φ rest = φ m c + (φ m d + termsSum φ rest) := by
        rw [map_add, add_comm (φ m d), add_assoc]
      by_cases hc : d + c = 0
      · simp only [hc, if_true, termsSum_cons]
        rw [← hsum, hc, map_zero, zero_add]
      · simpa only [hc, if_false, termsSum_cons] using hsum
    | gt =>
      simp only [termsSum_cons, ih]
      exact add_left_comm _ _ _

theorem termsSum_addTerms (p : Poly F n) (ts : List (Term F n)) :
    termsSum φ (p.addTerms ts).terms = termsSum φ p.terms + termsSum φ ts := by
  induction ts with
  | nil => simp [addTerms]
  | cons t ts ih =>
    have hcons : (p.addTerms (t :: ts)).terms = insertTerm t.1 t.2 (p.addTerms ts).terms := rfl
    rw [hcons, termsSum_insertTerm, ih, termsSum_cons, add_left_comm]

theorem termsSum_ofTerms (ts : List (Term F n)) :
    termsSum φ (ofTerms ts).terms = termsSum φ ts := by
  rw [ofTerms, termsSum_addTerms]
  exact zero_add _

theorem termsSum_add (p q : Poly F n) :
    termsSum φ (p + q).terms = termsSum φ p.terms + termsSum φ q.terms := termsSum_addTerms φ p _

end Collection

section Ring
variable {F A : Type} [CommRing F] [DecidableEq F] [CommRing A] {n : ℕ} {φ : Monomial n → F →+ A}

omit [DecidableEq F] in
/-- Amounts that multiply with the terms multiply with their sums. -/
theorem termsSum_mulTerms (hφ : ∀ s t c d, φ (s.mul t) (c * d) = φ s c * φ t d)
    (ss ts : List (Term F n)) :
    termsSum φ (mulTerms ss ts) = termsSum φ ss * termsSum φ ts := by
  have hrow (s : Term F n) (us : List (Term F n)) :
      termsSum φ (us.map fun t => (s.1.mul t.1, s.2 * t.2)) = φ s.1 s.2 * termsSum φ us := by
    induction us with
    | nil => simp
    | cons u us ih => simp [ih, hφ, mul_add]
  induction ss with
  | nil => simp [mulTerms]
  | cons s ss ih =>
    have hcons : mulTerms (s :: ss) ts =
        (ts.map fun t => (s.1.mul t.1, s.2 * t.2)) ++ mulTerms ss ts := rfl
    rw [hcons, termsSum_append, hrow, ih, termsSum_cons, add_mul]

end Ring

/-! ## Equal terms -/

section Canonical
variable {F : Type} [AddCommMonoid F] {n : ℕ}

theorem keys_nodup (p : Poly F n) : (p.terms.map Prod.fst).Nodup := by
  rw [List.nodup_iff_pairwise_ne, List.pairwise_map]
  refine p.sorted.imp fun {s t} hlt he => ?_
  rw [he, @Std.ReflCmp.compare_self _ compare] at hlt
  cases hlt

theorem trimmed (p : Poly F n) : Trimmed p.terms := ⟨p.keys_nodup, p.nonzero⟩

theorem eq_of_perm {p q : Poly F n} (h : p.terms.Perm q.terms) : p = q := by
  refine ext (h.eq_of_pairwise (fun s t _ _ hst hts => ?_) p.sorted q.sorted)
  rw [Std.OrientedCmp.gt_of_lt hts] at hst
  cases hst

theorem eq_iff_total {p q : Poly F n} : p = q ↔ ∀ m, total m p.terms = total m q.terms := by
  rw [← p.trimmed.perm_iff q.trimmed]
  exact ⟨fun h => h ▸ .refl _, eq_of_perm⟩

end Canonical

end Poly

end TapeAir
