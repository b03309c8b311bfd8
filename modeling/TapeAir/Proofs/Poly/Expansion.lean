import Mathlib.Algebra.MvPolynomial.CommRing
import Mathlib.Algebra.MvPolynomial.Eval
import TapeAir.Proofs.Poly.Evaluation
/-! # Polynomials as formal sums

A polynomial in canonical form is a formal sum of monomials, and different polynomials are different
sums. Every operation is the operation on formal sums, so the polynomials are a commutative ring,
and what holds of formal sums holds of them.
-/
namespace TapeAir

namespace Monomial
variable {n : ℕ}

noncomputable def exponents (m : Monomial n) : Fin n →₀ ℕ := Finsupp.equivFunOnFinite.symm m.get

@[simp] theorem exponents_apply (m : Monomial n) (i : Fin n) : m.exponents i = m.get i := rfl

theorem exponents_injective : Function.Injective (exponents : Monomial n → Fin n →₀ ℕ) := by
  intro s t h
  refine Vector.ext fun i hi => ?_
  exact DFunLike.congr_fun h ⟨i, hi⟩

@[simp] theorem exponents_unit : (unit : Monomial n).exponents = 0 := by
  ext i
  simp [unit, Poly.vector_get_eq]

@[simp] theorem exponents_mul (s t : Monomial n) :
    (s.mul t).exponents = s.exponents + t.exponents := by
  ext i
  simp [mul, Poly.vector_get_eq]

end Monomial

namespace Poly
variable {F : Type} [CommRing F] {n : ℕ}

open MvPolynomial (monomial C)

noncomputable def monomialHom (m : Monomial n) : F →+ MvPolynomial (Fin n) F :=
  (monomial m.exponents).toAddMonoidHom

theorem monomialHom_apply (m : Monomial n) (c : F) : monomialHom m c = monomial m.exponents c := rfl

theorem monomialHom_mul (s t : Monomial n) (c d : F) :
    monomialHom (s.mul t) (c * d) = monomialHom s c * monomialHom t d := by
  simp only [monomialHom_apply, Monomial.exponents_mul, MvPolynomial.monomial_mul]

/-- The formal sum of the terms of a polynomial. -/
noncomputable def expand (p : Poly F n) : MvPolynomial (Fin n) F := termsSum monomialHom p.terms

theorem coeff_expand (p : Poly F n) (m : Monomial n) :
    (expand p).coeff m.exponents = total m p.terms := by
  rw [expand, total]
  induction p.terms with
  | nil => simp
  | cons t ts ih =>
    have hterm : (monomialHom t.1 t.2 : MvPolynomial (Fin n) F).coeff m.exponents =
        coefficientAt m t.1 t.2 := by
      rw [monomialHom_apply, MvPolynomial.coeff_monomial]
      by_cases hm : t.1 = m
      · rw [if_pos (congrArg _ hm), hm, coefficientAt_self]
      · rw [if_neg (Monomial.exponents_injective.ne hm), coefficientAt_of_ne hm]
    simp [ih, hterm]

theorem expand_injective : Function.Injective (expand : Poly F n → MvPolynomial (Fin n) F) := by
  intro p q h
  exact eq_iff_total.mpr fun m => by rw [← coeff_expand, ← coeff_expand, h]

theorem eval_expand (point : Vector F n) (p : Poly F n) :
    MvPolynomial.eval point.get (expand p) = p.eval point := by
  rw [expand, eval_eq_termsValue]
  induction p.terms with
  | nil => simp
  | cons t ts ih =>
    have hterm : MvPolynomial.eval point.get (monomialHom t.1 t.2) = termValue point t.1 t.2 := by
      rw [monomialHom_apply, MvPolynomial.eval_monomial, termValue_eq,
        Finsupp.prod_fintype _ _ fun i => pow_zero _]
      rfl
    simp [ih, hterm]

variable [DecidableEq F]

theorem expand_ofTerms (ts : List (Term F n)) : expand (ofTerms ts) = termsSum monomialHom ts :=
  termsSum_ofTerms _ ts

omit [DecidableEq F] in
@[simp] theorem expand_zero : expand (0 : Poly F n) = 0 := rfl

@[simp] theorem expand_const (c : F) : expand (const c : Poly F n) = C c := by
  rw [const, expand_ofTerms, termsSum_cons, termsSum_nil, add_zero, monomialHom_apply,
    Monomial.exponents_unit]
  rfl

@[simp] theorem expand_one : expand (1 : Poly F n) = 1 := expand_const 1

@[simp] theorem expand_natCast (k : ℕ) : expand (k : Poly F n) = k :=
  (expand_const _).trans (map_natCast C k)

@[simp] theorem expand_add (p q : Poly F n) : expand (p + q) = expand p + expand q :=
  termsSum_add _ p q

@[simp] theorem expand_neg (p : Poly F n) : expand (-p) = -expand p :=
  (expand_ofTerms _).trans (termsSum_neg _ _)

@[simp] theorem expand_mul (p q : Poly F n) : expand (p * q) = expand p * expand q :=
  (expand_ofTerms _).trans (termsSum_mulTerms monomialHom_mul _ _)

instance : CommRing (Poly F n) where
  add_assoc p q r := expand_injective (by simp [add_assoc])
  zero_add p := expand_injective (by simp)
  add_zero p := expand_injective (by simp)
  add_comm p q := expand_injective (by simp [add_comm])
  neg_add_cancel p := expand_injective (by simp)
  sub_eq_add_neg p q := rfl
  mul_assoc p q r := expand_injective (by simp [mul_assoc])
  mul_comm p q := expand_injective (by simp [mul_comm])
  one_mul p := expand_injective (by simp)
  mul_one p := expand_injective (by simp)
  zero_mul p := expand_injective (by simp)
  mul_zero p := expand_injective (by simp)
  left_distrib p q r := expand_injective (by simp [mul_add])
  right_distrib p q r := expand_injective (by simp [add_mul])
  nsmul := nsmulRec
  zsmul := zsmulRec
  natCast_zero := expand_injective (by simp)
  natCast_succ k := expand_injective (by simp)

end Poly

end TapeAir
