import Mathlib.Algebra.Ring.Hom.Defs
import TapeAir.Poly.Basic
/-! # Mapping the coefficients

Terms in canonical form are left as they are when they are collected. An injective homomorphism of
the coefficients keeps that form, so it maps a polynomial term by term, and collecting terms before
or after the mapping makes no difference. Hence mapping keeps every operation on polynomials.
-/
namespace TapeAir.Poly

section Canonical
variable {F : Type} [Zero F] [Add F] [DecidableEq F] {n : ℕ}

theorem insertTerm_of_lt {m : Monomial n} {c : F} {ts : List (Term F n)} (hc : c ≠ 0)
    (h : ∀ t ∈ ts, compare m t.1 = .lt) : insertTerm m c ts = (m, c) :: ts := by
  cases ts with
  | nil => rw [insertTerm, if_neg hc]
  | cons t ts =>
    have hlt := h t List.mem_cons_self
    simp [insertTerm, hlt, hc]

theorem terms_ofTerms {ts : List (Term F n)}
    (hsorted : ts.Pairwise fun s t => compare s.1 t.1 = .lt) (hnonzero : ∀ t ∈ ts, t.2 ≠ 0) :
    (ofTerms ts).terms = ts := by
  induction ts with
  | nil => rfl
  | cons t ts ih =>
    obtain ⟨hfirst, hrest⟩ := List.pairwise_cons.mp hsorted
    obtain ⟨ht, hts⟩ := List.forall_mem_cons.mp hnonzero
    have hcons : (ofTerms (t :: ts)).terms = insertTerm t.1 t.2 (ofTerms ts).terms := rfl
    rw [hcons, ih hrest hts, insertTerm_of_lt ht hfirst]

end Canonical

section Mapping
variable {F G : Type} [CommRing F] [CommRing G] [DecidableEq F] [DecidableEq G] {n : ℕ}
variable (f : F →+* G)

def mapTerm (t : Term F n) : Term G n := (t.1, f t.2)

variable {f} (hf : Function.Injective f)
include hf

theorem mapTerms_insertTerm (m : Monomial n) (c : F) (ts : List (Term F n)) :
    (insertTerm m c ts).map (mapTerm f) = insertTerm m (f c) (ts.map (mapTerm f)) := by
  have hzero (x : F) : f x = 0 ↔ x = 0 := map_eq_zero_iff f hf
  induction ts with
  | nil =>
    by_cases hc : c = 0
    · simp [insertTerm, hc]
    · simp [insertTerm, hc, hzero, mapTerm]
  | cons t ts ih =>
    simp only [insertTerm, List.map_cons, mapTerm] at ih ⊢
    cases compare m t.1 with
    | lt => by_cases hc : c = 0 <;> simp [hc, hzero, mapTerm]
    | eq => by_cases hc : t.2 + c = 0 <;> simp [hc, ← map_add, hzero, mapTerm]
    | gt => simp [ih, mapTerm]

omit [DecidableEq F] in
theorem terms_map (p : Poly F n) : (p.map f).terms = p.terms.map (mapTerm f) := by
  refine terms_ofTerms ?_ ?_
  · rw [List.pairwise_map]
    exact p.sorted
  · simp only [List.forall_mem_map, ne_eq, map_eq_zero_iff f hf]
    exact p.nonzero

theorem map_addTerms (p : Poly F n) (ts : List (Term F n)) :
    (p.addTerms ts).map f = (p.map f).addTerms (ts.map (mapTerm f)) := by
  induction ts with
  | nil => rfl
  | cons t ts ih =>
    apply ext
    have hcons : (p.addTerms (t :: ts)).terms = insertTerm t.1 t.2 (p.addTerms ts).terms := rfl
    rw [terms_map hf, hcons, mapTerms_insertTerm hf, ← terms_map hf, ih]
    rfl

theorem map_ofTerms (ts : List (Term F n)) :
    (ofTerms ts).map f = ofTerms (ts.map (mapTerm f)) := map_addTerms hf zero ts

theorem map_const (c : F) : (const c : Poly F n).map f = const (f c) := map_ofTerms hf _

theorem map_X (i : ℕ) : (X i : Poly F n).map f = X i := by
  by_cases hi : i < n
  · rw [X, if_pos hi, map_ofTerms hf, X, if_pos hi]
    simp [mapTerm]
  · rw [X, if_neg hi, X, if_neg hi]
    rfl

theorem map_add (p q : Poly F n) : (p + q).map f = p.map f + q.map f := by
  change (p.addTerms q.terms).map f = (p.map f).addTerms (q.map f).terms
  rw [map_addTerms hf, terms_map hf]

theorem map_neg (p : Poly F n) : (-p).map f = -p.map f := by
  change (ofTerms (p.terms.map fun t => (t.1, -t.2))).map f =
    ofTerms ((p.map f).terms.map fun t => (t.1, -t.2))
  rw [map_ofTerms hf, terms_map hf, List.map_map, List.map_map]
  simp [Function.comp_def, mapTerm]

theorem map_sub (p q : Poly F n) : (p - q).map f = p.map f - q.map f := by
  change (p + -q).map f = p.map f + -q.map f
  rw [map_add hf, map_neg hf]

theorem map_mul (p q : Poly F n) : (p * q).map f = p.map f * q.map f := by
  have hmulTerms (ss ts : List (Term F n)) : (mulTerms ss ts).map (mapTerm f) =
      mulTerms (ss.map (mapTerm f)) (ts.map (mapTerm f)) := by
    simp [mulTerms, List.map_flatMap, List.flatMap_map, Function.comp_def, mapTerm]
  change (ofTerms (mulTerms p.terms q.terms)).map f =
    ofTerms (mulTerms (p.map f).terms (q.map f).terms)
  rw [map_ofTerms hf, hmulTerms, terms_map hf, terms_map hf]

end Mapping

end TapeAir.Poly
