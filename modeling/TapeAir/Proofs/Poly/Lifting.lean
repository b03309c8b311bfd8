import TapeAir.Proofs.Calculator.Polynomial
import TapeAir.Proofs.Constraint.Extended
import TapeAir.Proofs.Poly.Powers
/-! # Lifting polynomials

Lifting is an injective homomorphism of the coefficients. So lifted polynomials combine to the
lifted result, and their values at lifted points are the lifted values. An extension polynomial may
be evaluated at base coordinates as they are. Coefficients are then scaled by powers taken in the
base field, which is the same as multiplying by powers of the lifted coordinates.
-/
namespace TapeAir

/-! ## Mixed points -/

namespace Element

def toCubic : Element → Cubic
  | .base a => Cubic.lift a
  | .ext x => x

def lifted (x : Element) : Element := .ext x.toCubic

instance : One Element := ⟨.ext 1⟩

instance : Pow Element ℕ where
  pow
    | .base a, e => .base (a ^ e)
    | .ext x, e => .ext (x ^ e)

instance : HMul Cubic Element Cubic where
  hMul
    | c, .base a => c.scale a
    | c, .ext x => c * x

theorem standsFor_toCubic : StandsFor toCubic where
  mul_self c x := by
    cases x with
    | base a => exact Cubic.scale_eq_mul_lift a c
    | ext x => rfl
  mul_pow c x e := by
    cases x with
    | base a => exact (Cubic.scale_eq_mul_lift _ c).trans (congrArg (c * ·) (Cubic.lift_pow a e))
    | ext x => rfl

end Element

/-! ## Lifted coefficients -/

namespace Poly
variable {F G : Type} [CommRing F] [CommRing G] [DecidableEq G] {n : ℕ} {f : F →+* G}
variable (hf : Function.Injective f)
include hf

theorem map_injective : Function.Injective (Poly.map f : Poly F n → Poly G n) := by
  intro p q h
  have hterms := congrArg terms h
  rw [terms_map hf, terms_map hf] at hterms
  have hterm : Function.Injective (mapTerm f : Term F n → Term G n) := fun s t hst =>
    Prod.ext (Prod.mk.inj hst).1 (hf (Prod.mk.inj hst).2)
  exact ext (List.map_injective_iff.mpr hterm hterms)

theorem eval_map {point : List F} (h : point.length = n) (h' : (point.map f).length = n)
    (p : Poly F n) :
    (p.map f).eval ⟨(point.map f).toArray, h'⟩ = f (p.eval ⟨point.toArray, h⟩) := by
  have hproduct (k : List ℕ) :
      Dictionary.product (point.map f) k = f (Dictionary.product point k) := by
    rw [Dictionary.product, Dictionary.product, map_list_prod, List.map_zipWith,
      List.zipWith_map_left]
    simp only [map_pow]
  rw [eval_eq_sum, eval_eq_sum, dictionary_map hf, map_list_sum, List.map_map, List.map_map]
  simp only [Function.comp_def, hproduct, RingHom.map_mul]

end Poly

namespace AnyPoly
variable {n : ℤ}

/-- An operation has a result, and on lifted operands the lifted result. -/
def KeepsLift (op : AnyPoly → AnyPoly → Except PolyError AnyPoly) (p q : AnyPoly) : Prop :=
  ∃ r, op p q = .ok r ∧ op p.lift q.lift = .ok r.lift

section Operations
variable {p q : Shape.Poly ⟨.base, n⟩}

theorem keepsLift_of_map {op : AnyPoly → AnyPoly → Except PolyError AnyPoly}
    {r : Shape.Poly ⟨.base, n⟩} {r' : Shape.Poly ⟨.ext, n⟩} (h : op ⟨_, p⟩ ⟨_, q⟩ = .ok ⟨_, r⟩)
    (hlifted : op (lift ⟨_, p⟩) (lift ⟨_, q⟩) = .ok ⟨_, r'⟩) (hr : Poly.map Cubic.lift r = r') :
    KeepsLift op ⟨_, p⟩ ⟨_, q⟩ := by
  subst hr
  exact ⟨_, h, hlifted⟩

theorem lift_injective (h : lift ⟨_, p⟩ = lift ⟨_, q⟩) : p = q :=
  Poly.map_injective Cubic.liftHom_injective (eq_of_heq (AnyPoly.mk.inj h).2)

end Operations

theorem eval_lift {point : List Goldilocks} (h : (point.length : ℤ) = n)
    (p : Shape.Poly ⟨.base, n⟩) :
    ∃ a : Goldilocks, eval ⟨_, p⟩ (Shape.coordinates ⟨.base, n⟩ point) = .ok a ∧
      eval (lift ⟨_, p⟩) (Shape.coordinates ⟨.ext, n⟩ (point.map Cubic.lift)) =
        .ok (Cubic.lift a) := by
  have hlifted : ((point.map Cubic.lift).length : ℤ) = n := by rwa [List.length_map]
  refine ⟨_, Shape.eval_coordinates h p, (Shape.eval_coordinates hlifted _).trans ?_⟩
  exact congrArg Except.ok (Poly.eval_map Cubic.liftHom_injective _ _ p)

/-- At a mixed point a polynomial takes the value that it takes after lifting every coordinate, with
or without remembered powers. -/
theorem eval_mixed {point : List Element} (h : (point.length : ℤ) = n)
    (p : Shape.Poly ⟨.ext, n⟩) :
    ∃ a : Cubic, eval ⟨_, p⟩ (point.map some) = .ok a ∧
      eval ⟨_, p⟩ (point.map fun x => some x.lifted) = .ok a ∧
      ∀ d, p.Lists n d → d.evaluate point = a ∧ d.evaluate (point.map Element.lifted) = a := by
  have hlength : ((point.map Element.toCubic).length : ℤ) = n := by rwa [List.length_map]
  have hlifted : (point.map Element.lifted).map Element.toCubic = point.map Element.toCubic := by
    rw [List.map_map]
    rfl
  refine ⟨_, eval_mk p hlength ?_, eval_mk p hlength ?_, fun d hd => ⟨?_, ?_⟩⟩
  · rw [List.map_map, List.map_map]
    refine List.map_congr_left fun x _ => ?_
    cases x <;> rfl
  · rw [List.map_map, List.map_map]
    rfl
  · exact hd.evaluate_eq Element.standsFor_toCubic _
  · rw [Dictionary.evaluate_eq Element.standsFor_toCubic, hlifted,
      ← Dictionary.evaluate_eq Element.standsFor_toCubic]
    exact hd.evaluate_eq Element.standsFor_toCubic _

/-- Lifting commutes with evaluation and with the operations, and loses nothing. Extension
polynomials take base coordinates as if they were lifted. -/
theorem lift_commutes {n : ℤ} (p q : Shape.Poly ⟨.base, n⟩) (r : Shape.Poly ⟨.ext, n⟩)
    {point : List Goldilocks} (hpoint : (point.length : ℤ) = n)
    {mixed : List Element} (hmixed : (mixed.length : ℤ) = n) :
    (∃ a : Goldilocks, eval ⟨_, p⟩ (Shape.coordinates ⟨.base, n⟩ point) = .ok a ∧
      eval (lift ⟨_, p⟩) (Shape.coordinates ⟨.ext, n⟩ (point.map Cubic.lift)) =
        .ok (Cubic.lift a)) ∧
    KeepsLift add ⟨_, p⟩ ⟨_, q⟩ ∧ KeepsLift sub ⟨_, p⟩ ⟨_, q⟩ ∧ KeepsLift mul ⟨_, p⟩ ⟨_, q⟩ ∧
    (lift ⟨_, p⟩ = lift ⟨_, q⟩ → p = q) ∧
    (∀ d, p.Lists n d → ∃ e, Dictionary.mapCoefficients Cubic.lift n d = .ok e ∧
      Poly.Lists n e (lift ⟨_, p⟩).poly) ∧
    ∃ x : Cubic, eval ⟨_, r⟩ (mixed.map some) = .ok x ∧
      eval ⟨_, r⟩ (mixed.map fun y => some y.lifted) = .ok x ∧
      ∀ d, r.Lists n d → d.evaluate mixed = x ∧ d.evaluate (mixed.map Element.lifted) = x :=
  ⟨eval_lift hpoint p,
    keepsLift_of_map (add_mk p q) (add_mk _ _) (Poly.map_add Cubic.liftHom_injective p q),
    keepsLift_of_map (sub_mk p q) (sub_mk _ _) (Poly.map_sub Cubic.liftHom_injective p q),
    keepsLift_of_map (mul_mk p q) (mul_mk _ _) (Poly.map_mul Cubic.liftHom_injective p q),
    lift_injective, fun _ hd => hd.map Cubic.liftHom_injective, eval_mixed hmixed r⟩

theorem difference_of_squares_lift :
    let n : ℤ := 2
    let p : Shape.Poly ⟨.base, n⟩ := .X 0 + .X 1
    let q : Shape.Poly ⟨.base, n⟩ := .X 0 - .X 1
    let r : Shape.Poly ⟨.ext, n⟩ := .X 0 * .X 1 + .const ⟨0, 1, 0⟩
    let mixed : List Element := [.base 2, .ext ⟨0, 1, 0⟩]
    (([3, 4] : List Goldilocks).length : ℤ) = n ∧ (mixed.length : ℤ) = n ∧
      eval (lift ⟨_, p * q⟩) (Shape.coordinates ⟨.ext, n⟩ ([3, 4].map Cubic.lift)) =
        .ok (Cubic.lift (-7)) ∧
      KeepsLift mul ⟨_, p * q⟩ ⟨_, q⟩ ∧
      eval ⟨_, r⟩ (mixed.map fun y => some y.lifted) = .ok (⟨0, 3, 0⟩ : Cubic) := by
  intro n p q r mixed
  have hpoint : (([3, 4] : List Goldilocks).length : ℤ) = n := rfl
  have hlength : (mixed.length : ℤ) = n := rfl
  obtain ⟨⟨a, ha, hlifted⟩, -, -, hmul, -, -, x, hx, hmixed, -⟩ :=
    lift_commutes (p * q) q r hpoint hlength
  have hvalue : eval ⟨_, p * q⟩ (Shape.coordinates ⟨.base, n⟩ [3, 4]) = .ok (-7 : Goldilocks) := by
    decide +kernel
  have hvalue' : eval ⟨_, r⟩ (mixed.map some) = .ok (⟨0, 3, 0⟩ : Cubic) := by decide +kernel
  cases ha.symm.trans hvalue
  cases hx.symm.trans hvalue'
  exact ⟨hpoint, hlength, hlifted, hmul, hmixed⟩

end AnyPoly

end TapeAir
