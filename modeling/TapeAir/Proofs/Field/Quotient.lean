import TapeAir.Calculator.Operator
import TapeAir.Proofs.Field.Euclid
import TapeAir.Proofs.Field.Extension
import TapeAir.Proofs.Field.Residue
/-! # The cubic extension as a quotient of polynomials

The three coefficients of an element stand for a polynomial of degree below three. Arithmetic of
elements is arithmetic of these polynomials modulo `X ^ 3 - X + 1`, and the loops that multiply and
invert lists of coefficients find the products and the inverses of elements. The extension holds the
prime field: lifting keeps all operations.
-/
namespace TapeAir

namespace Cubic

open Polynomial

variable {a b : Cubic}

/-- The coefficients of `X ^ 3 - X + 1` below the leading one. -/
def modulusCoefficients : List Goldilocks := [1, -1, 0]

theorem modulus_eq : Coefficients.modulus modulusCoefficients = X ^ 3 - X + 1 := by
  have hlength : modulusCoefficients.length = 3 := rfl
  rw [Coefficients.modulus, hlength]
  simp only [modulusCoefficients, Coefficients.toPoly, C_neg, C_1, C_0]
  ring

noncomputable def polynomial (a : Cubic) : Goldilocks[X] := C a.c0 + C a.c1 * X + C a.c2 * X ^ 2

theorem toPoly_toList (a : Cubic) : Coefficients.toPoly a.toList = a.polynomial := by
  simp only [toList, Coefficients.toPoly, polynomial]
  ring

theorem toList_injective (h : a.toList = b.toList) : a = b := by
  have hread := congrArg ofList? h
  rw [ofList?_toList, ofList?_toList] at hread
  exact Option.some.inj hread

theorem exists_toList {e : List Goldilocks} (h : e.length = 3) : ∃ a : Cubic, a.toList = e := by
  obtain ⟨c0, c1, c2, rfl⟩ := List.length_eq_three.mp h
  exact ⟨⟨c0, c1, c2⟩, rfl⟩

theorem polynomial_injective (h : a.polynomial = b.polynomial) : a = b := by
  rw [← toPoly_toList, ← toPoly_toList] at h
  exact toList_injective (Coefficients.toPoly_injective_of_length rfl h)

theorem polynomial_lift (x : Goldilocks) : (lift x).polynomial = C x := by
  simp [polynomial, lift]

theorem polynomial_one : (1 : Cubic).polynomial = 1 := polynomial_lift 1

theorem polynomial_eq_modByMonic {p : Goldilocks[X]} (h : X ^ 3 - X + 1 ∣ p - a.polynomial) :
    a.polynomial = p %ₘ (X ^ 3 - X + 1) := by
  rw [← modulus_eq, ← toPoly_toList] at *
  exact Coefficients.toPoly_eq_modByMonic rfl h

theorem polynomial_add (a b : Cubic) :
    (a + b).polynomial = (a.polynomial + b.polynomial) %ₘ (X ^ 3 - X + 1) := by
  apply polynomial_eq_modByMonic
  refine ⟨0, ?_⟩
  simp only [polynomial, add_c0, add_c1, add_c2, C_add]
  ring

theorem polynomial_sub (a b : Cubic) :
    (a - b).polynomial = (a.polynomial - b.polynomial) %ₘ (X ^ 3 - X + 1) := by
  apply polynomial_eq_modByMonic
  refine ⟨0, ?_⟩
  simp only [polynomial, sub_c0, sub_c1, sub_c2, C_sub]
  ring

/-- The quotient holds the two coefficients that a product has above the second power. -/
theorem polynomial_mul (a b : Cubic) :
    (a * b).polynomial = a.polynomial * b.polynomial %ₘ (X ^ 3 - X + 1) := by
  apply polynomial_eq_modByMonic
  refine ⟨C (a.c1 * b.c2 + a.c2 * b.c1) + C (a.c2 * b.c2) * X, ?_⟩
  simp only [polynomial, mul_c0, mul_c1, mul_c2, C_add, C_sub, C_mul]
  ring

theorem isProduct_mul (a b : Cubic) :
    Coefficients.IsProduct modulusCoefficients a.toList b.toList (a * b).toList := by
  obtain ⟨e, hproduct, hlength, hpoly⟩ :=
    Coefficients.exists_product (m := modulusCoefficients) (a := a.toList) (b := b.toList)
      (List.cons_ne_nil _ _) rfl rfl
  obtain ⟨c, rfl⟩ := exists_toList hlength
  rw [modulus_eq, toPoly_toList, toPoly_toList, toPoly_toList, ← polynomial_mul] at hpoly
  rw [← polynomial_injective hpoly]
  exact hproduct

/-- An element that has an inverse has no factor in common with the modulus. -/
theorem isCoprime_polynomial (h : a ≠ 0) : IsCoprime a.polynomial (X ^ 3 - X + 1) := by
  have hdivision :=
    modByMonic_add_div (a.polynomial * a⁻¹.polynomial) (X ^ 3 - X + 1 : Goldilocks[X])
  rw [← polynomial_mul, mul_inv_of_ne_zero a h, polynomial_one] at hdivision
  refine ⟨a⁻¹.polynomial, -(a.polynomial * a⁻¹.polynomial /ₘ (X ^ 3 - X + 1)), ?_⟩
  linear_combination -hdivision

theorem findsInverse_inv (a : Cubic) :
    Coefficients.FindsInverse modulusCoefficients a.toList a⁻¹.toList := by
  by_cases h : a = 0
  · rw [h, inv_zero_eq]
    exact Coefficients.findsInverse_zero (Coefficients.toPoly_replicate_zero 3)
  · have hcoprime : IsCoprime (Coefficients.toPoly a.toList)
        (Coefficients.modulus modulusCoefficients) := by
      rw [toPoly_toList, modulus_eq]
      exact isCoprime_polynomial h
    obtain ⟨e, hfinds, hlength, hdvd⟩ :=
      Coefficients.exists_inverse (m := modulusCoefficients) (a := a.toList)
        (List.cons_ne_nil _ _) rfl hcoprime
    obtain ⟨b, rfl⟩ := exists_toList hlength
    rw [modulus_eq, toPoly_toList, toPoly_toList] at hdvd
    have hone : b * a = 1 := by
      apply polynomial_injective
      rw [polynomial_mul]
      refine (polynomial_eq_modByMonic ?_).symm
      rwa [polynomial_one]
    rw [← eq_inv_of_mul_eq_one_left hone]
    exact hfinds

/-! ## The laws -/

structure RingLaws (a b c : Cubic) : Prop where
  add_assoc : a + b + c = a + (b + c)
  add_comm : a + b = b + a
  zero_add : 0 + a = a
  add_neg_self : a + -a = 0
  sub_eq_add_neg : a - b = a + -b
  mul_assoc : a * b * c = a * (b * c)
  mul_comm : a * b = b * a
  one_mul : 1 * a = a
  mul_add : a * (b + c) = a * b + a * c

theorem ringLaws (a b c : Cubic) : RingLaws a b c where
  add_assoc := add_assoc a b c
  add_comm := add_comm a b
  zero_add := zero_add a
  add_neg_self := add_neg_cancel a
  sub_eq_add_neg := sub_eq_add_neg a b
  mul_assoc := mul_assoc a b c
  mul_comm := mul_comm a b
  one_mul := one_mul a
  mul_add := mul_add a b c

structure PolynomialLaws (a b : Cubic) : Prop where
  add : (a + b).polynomial = (a.polynomial + b.polynomial) %ₘ (X ^ 3 - X + 1)
  sub : (a - b).polynomial = (a.polynomial - b.polynomial) %ₘ (X ^ 3 - X + 1)
  mul : (a * b).polynomial = a.polynomial * b.polynomial %ₘ (X ^ 3 - X + 1)
  product (e : List Goldilocks) :
    Coefficients.IsProduct modulusCoefficients a.toList b.toList e ↔ e = (a * b).toList

theorem polynomialLaws (a b : Cubic) : PolynomialLaws a b where
  add := polynomial_add a b
  sub := polynomial_sub a b
  mul := polynomial_mul a b
  product e := by
    constructor
    · exact (isProduct_mul a b).unique
    · rintro rfl
      exact isProduct_mul a b

structure DivisionLaws (a b : Cubic) : Prop where
  mul_inv : a ≠ 0 → a * a⁻¹ = 1
  div_mul : a ≠ 0 → b / a * a = b
  inv_zero : a = 0 → a⁻¹ = 0
  div_eq : b / a = b * a⁻¹
  inverse (e : List Goldilocks) :
    Coefficients.FindsInverse modulusCoefficients a.toList e ↔ e = a⁻¹.toList

theorem divisionLaws (a b : Cubic) : DivisionLaws a b where
  mul_inv := mul_inv_of_ne_zero a
  div_mul h := div_mul_cancel₀ b h
  inv_zero h := h ▸ inv_zero_eq
  div_eq := rfl
  inverse e := by
    constructor
    · exact (findsInverse_inv a).unique
    · rintro rfl
      exact findsInverse_inv a

structure LiftLaws (x y : Goldilocks) : Prop where
  injective : lift x = lift y → x = y
  add : lift (x + y) = lift x + lift y
  sub : lift (x - y) = lift x - lift y
  mul : lift (x * y) = lift x * lift y
  div : lift (x / y) = lift x / lift y
  one : lift 1 = 1

theorem liftLaws (x y : Goldilocks) : LiftLaws x y where
  injective := lift_injective
  add := map_add liftHom x y
  sub := map_sub liftHom x y
  mul := map_mul liftHom x y
  div := map_div₀ liftHom x y
  one := rfl

theorem scale_inv_eq_div_lift (x : Goldilocks) (a : Cubic) : a.scale x⁻¹ = a / lift x := by
  have hinv : lift x⁻¹ = (lift x)⁻¹ := map_inv₀ liftHom x
  rw [scale_eq_mul_lift, hinv]
  rfl

end Cubic

/-- The answers of the calculator for an extension element: with another one, inverted, and with a
base element on the right, by which every coefficient is multiplied or divided. -/
structure Operator.GivesCubic (a b : Cubic) (x : Goldilocks) : Prop where
  pair (op : Operator) : op.apply (.ext a) (.ext b) = .ok (.ext (op.ofCubic a b))
  invert : (Value.ext a).invert = .ok (.ext a⁻¹)
  lift : (Value.base x).toCubic = .ok (.lift x)
  mulBase : Operator.mul.apply (.ext a) (.base x) = .ok (.ext (a * .lift x))
  divBase : Operator.div.apply (.ext a) (.base x) = .ok (.ext (a / .lift x))
  mulCoefficients : (a * .lift x).toList = a.toList.map (· * x)
  divCoefficients : (a / .lift x).toList = a.toList.map (· / x)

theorem Operator.givesCubic (a b : Cubic) (x : Goldilocks) : Operator.GivesCubic a b x where
  pair _ := rfl
  invert := rfl
  lift := congrArg (fun y => Except.ok (Cubic.lift y)) (Goldilocks.ofInt_val x)
  mulBase := by
    rw [← Cubic.scale_eq_mul_lift]
    rfl
  divBase := by
    rw [← Cubic.scale_inv_eq_div_lift]
    rfl
  mulCoefficients := by
    rw [← Cubic.scale_eq_mul_lift]
    rfl
  divCoefficients := by
    rw [← Cubic.scale_inv_eq_div_lift]
    rfl

/-- The extension is the field of polynomials over the prime field modulo `X ^ 3 - X + 1`, and its
arithmetic with base elements is that with their lifts. -/
theorem Cubic.extends_prime_field (a b c : Cubic) (x y : Goldilocks) :
    RingLaws a b c ∧ PolynomialLaws a b ∧ DivisionLaws a b ∧ LiftLaws x y ∧
      Operator.GivesCubic a b x :=
  ⟨ringLaws a b c, polynomialLaws a b, divisionLaws a b, liftLaws x y, Operator.givesCubic a b x⟩

example : (⟨0, 1, 0⟩ : Cubic)⁻¹ = ⟨1, 0, -1⟩ := by decide +kernel

end TapeAir
