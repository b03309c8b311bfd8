import Mathlib.FieldTheory.Finite.Polynomial
import TapeAir.Proofs.Calculator.Reachable
import TapeAir.Proofs.Poly.Expansion
/-! # Polynomials as functions

Over a finite field a polynomial whose exponents are below the number of elements is determined by
its values. The bound is needed, since every element equals its power to that number.
-/
namespace TapeAir

namespace Poly
variable {F : Type} {n : ℕ}

theorem expand_mem_restrictDegree [CommRing F] {p : Poly F n} {b : ℕ}
    (h : ∀ t ∈ p.terms, ∀ i, t.1.get i ≤ b) :
    expand p ∈ MvPolynomial.restrictDegree (Fin n) F b := by
  rw [expand, termsSum]
  refine list_sum_mem (List.forall_mem_map.mpr fun t ht => ?_)
  rw [monomialHom_apply, MvPolynomial.mem_restrictDegree]
  intro k hk i
  obtain rfl := Finset.mem_singleton.mp (MvPolynomial.support_monomial_subset hk)
  exact h t ht i

/-- With exponents below the number of elements, equal values make equal polynomials. -/
theorem eq_of_eval_eq [Field F] [Finite F] [DecidableEq F] {p q : Poly F n}
    (hp : ∀ t ∈ p.terms, ∀ i, t.1.get i < Nat.card F)
    (hq : ∀ t ∈ q.terms, ∀ i, t.1.get i < Nat.card F)
    (h : ∀ point : Vector F n, p.eval point = q.eval point) : p = q := by
  have := Fintype.ofFinite F
  have hbound {p : Poly F n} (hp : ∀ t ∈ p.terms, ∀ i, t.1.get i < Nat.card F) :
      expand p ∈ MvPolynomial.restrictDegree (Fin n) F (Fintype.card F - 1) := by
    rw [← Nat.card_eq_fintype_card]
    exact expand_mem_restrictDegree fun t ht i => Nat.le_sub_one_of_lt (hp t ht i)
  have hvanish (v : Fin n → F) : MvPolynomial.eval v (expand p - expand q) = 0 := by
    have hv : (Vector.ofFn v).get = v := by
      ext i
      simp [vector_get_eq]
    rw [RingHom.map_sub, ← hv, eval_expand, eval_expand, h, sub_self]
  have hzero : expand p - expand q = 0 := MvPolynomial.eq_zero_of_eval_eq_zero _ _ _ hvanish
    (Submodule.sub_mem _ (hbound hp) (hbound hq))
  exact expand_injective (sub_eq_zero.mp hzero)

end Poly

namespace AnyPoly
variable {s : Shape}

def ExponentsBelowSize (p : AnyPoly) : Prop :=
  ∀ t ∈ p.poly.dictionary, ∀ e ∈ t.1, e < p.shape.level.size

/-- Polynomials compare as equal if and only if they are equal as functions. -/
theorem equal_iff_equal_values {p q : s.Poly} (hp : Reachable ⟨s, p⟩) (hq : Reachable ⟨s, q⟩)
    (hpsize : ExponentsBelowSize ⟨s, p⟩) (hqsize : ExponentsBelowSize ⟨s, q⟩) :
    Comparison.eq.apply (.poly ⟨s, p⟩) (.poly ⟨s, q⟩) = .ok true ↔
      ∀ point : List s.level.Carrier, (point.length : ℤ) = s.arity →
        eval ⟨s, p⟩ (s.coordinates point) = eval ⟨s, q⟩ (s.coordinates point) := by
  rw [Comparison.eq_poly_iff]
  refine ⟨fun h _ _ => h ▸ rfl, fun h => ?_⟩
  by_cases harity : 0 ≤ s.arity
  · have hexponent {p : s.Poly} (hsize : ExponentsBelowSize ⟨s, p⟩) :
        ∀ t ∈ p.terms, ∀ i, t.1.get i < Nat.card s.level.Carrier := by
      intro t ht i
      rw [Level.card_carrier]
      refine hsize _ (List.mem_map_of_mem ht) _ ?_
      simp [Poly.vector_get_eq]
    refine Poly.eq_of_eval_eq (hexponent hpsize) (hexponent hqsize) fun point => ?_
    obtain ⟨⟨point⟩, hpoint⟩ := point
    have hlength : (point.length : ℤ) = s.arity := by
      rw [show point.length = s.arity.toNat from hpoint]
      exact Int.toNat_of_nonneg harity
    have hvalue := h point hlength
    rw [Shape.eval_coordinates hlength, Shape.eval_coordinates hlength] at hvalue
    exact Except.ok.inj hvalue
  · have hneg := Int.not_le.mp harity
    rw [hp.fits.eq_zero hneg, hq.fits.eq_zero hneg]

theorem difference_of_squares_values :
    let s : Shape := ⟨.ext, 2⟩
    let p : s.Poly := (.X 0 + .X 1) * (.X 0 - .X 1)
    let q : s.Poly := .X 0 * .X 0 - .X 1 * .X 1
    let r : s.Poly := .X 0 * .X 0
    (Reachable ⟨s, p⟩ ∧ ExponentsBelowSize ⟨s, p⟩) ∧
      (Reachable ⟨s, q⟩ ∧ ExponentsBelowSize ⟨s, q⟩) ∧
      (Reachable ⟨s, r⟩ ∧ ExponentsBelowSize ⟨s, r⟩) ∧
      (∀ point : List s.level.Carrier, (point.length : ℤ) = s.arity →
        eval ⟨s, p⟩ (s.coordinates point) = eval ⟨s, q⟩ (s.coordinates point)) ∧
      ¬∀ point : List s.level.Carrier, (point.length : ℤ) = s.arity →
        eval ⟨s, p⟩ (s.coordinates point) = eval ⟨s, r⟩ (s.coordinates point) := by
  intro s p q r
  have hreachable : ∀ p : s.Poly, Reachable ⟨s, p⟩ := reachable_of_nonneg (by decide)
  have hp : ExponentsBelowSize ⟨s, p⟩ := by
    unfold ExponentsBelowSize
    decide +kernel
  have hq : ExponentsBelowSize ⟨s, q⟩ := by
    unfold ExponentsBelowSize
    decide +kernel
  have hr : ExponentsBelowSize ⟨s, r⟩ := by
    unfold ExponentsBelowSize
    decide +kernel
  refine ⟨⟨hreachable p, hp⟩, ⟨hreachable q, hq⟩, ⟨hreachable r, hr⟩, ?_, ?_⟩
  · rw [← equal_iff_equal_values (hreachable p) (hreachable q) hp hq]
    decide +kernel
  · rw [← equal_iff_equal_values (hreachable p) (hreachable r) hp hr]
    decide +kernel

end AnyPoly

end TapeAir
