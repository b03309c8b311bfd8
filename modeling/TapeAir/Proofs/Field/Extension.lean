import Mathlib.Tactic.LinearCombination
import TapeAir.Field.Cubic
import TapeAir.Proofs.Field.Prime
/-! # The cubic extension is a field

An element whose norm is zero has a cofactor whose cofactor is zero, and a nonzero element with a
zero cofactor would give a root of `X ^ 3 - X + 1` in the prime field. There is none: a root would
be fixed by raising to the modulus, and that power of `X` is computed here.
-/
namespace TapeAir.Cubic

section Components
variable (a b : Cubic)

@[simp] theorem zero_c0 : (0 : Cubic).c0 = 0 := rfl
@[simp] theorem zero_c1 : (0 : Cubic).c1 = 0 := rfl
@[simp] theorem zero_c2 : (0 : Cubic).c2 = 0 := rfl
@[simp] theorem one_c0 : (1 : Cubic).c0 = 1 := rfl
@[simp] theorem one_c1 : (1 : Cubic).c1 = 0 := rfl
@[simp] theorem one_c2 : (1 : Cubic).c2 = 0 := rfl
@[simp] theorem add_c0 : (a + b).c0 = a.c0 + b.c0 := rfl
@[simp] theorem add_c1 : (a + b).c1 = a.c1 + b.c1 := rfl
@[simp] theorem add_c2 : (a + b).c2 = a.c2 + b.c2 := rfl
@[simp] theorem neg_c0 : (-a).c0 = -a.c0 := rfl
@[simp] theorem neg_c1 : (-a).c1 = -a.c1 := rfl
@[simp] theorem neg_c2 : (-a).c2 = -a.c2 := rfl
@[simp] theorem sub_c0 : (a - b).c0 = a.c0 - b.c0 := rfl
@[simp] theorem sub_c1 : (a - b).c1 = a.c1 - b.c1 := rfl
@[simp] theorem sub_c2 : (a - b).c2 = a.c2 - b.c2 := rfl

@[simp] theorem mul_c0 : (a * b).c0 = a.c0 * b.c0 - (a.c1 * b.c2 + a.c2 * b.c1) := rfl

@[simp] theorem mul_c1 : (a * b).c1 =
    a.c0 * b.c1 + a.c1 * b.c0 + (a.c1 * b.c2 + a.c2 * b.c1) - a.c2 * b.c2 := rfl

@[simp] theorem mul_c2 : (a * b).c2 =
    a.c0 * b.c2 + a.c1 * b.c1 + a.c2 * b.c0 + a.c2 * b.c2 := rfl

end Components

theorem mul_assoc_aux (a b c : Cubic) : a * b * c = a * (b * c) := by
  apply ext <;> simp <;> ring

theorem one_mul_aux (a : Cubic) : 1 * a = a := by
  apply ext <;> simp

theorem mul_one_aux (a : Cubic) : a * 1 = a := by
  apply ext <;> simp

@[reducible] private def monoid : Monoid Cubic where
  mul_assoc := mul_assoc_aux
  one_mul := one_mul_aux
  mul_one := mul_one_aux
  npow := npowRec
  npow_zero _ := rfl
  npow_succ _ _ := rfl

theorem pow_succ_aux (n : ℕ) (a : Cubic) : a ^ (n + 1) = a ^ n * a := by
  have h (e : ℕ) := @map_power Cubic Cubic _ _ monoid id rfl (fun _ _ => rfl) a e
  exact (h (n + 1)).trans ((@pow_succ _ monoid a n).trans (congrArg (· * a) (h n).symm))

instance : CommRing Cubic where
  add_assoc a b c := by apply ext <;> simp [add_assoc]
  zero_add a := by apply ext <;> simp
  add_zero a := by apply ext <;> simp
  add_comm a b := by apply ext <;> simp [add_comm]
  neg_add_cancel a := by apply ext <;> simp
  sub_eq_add_neg a b := by apply ext <;> simp [sub_eq_add_neg]
  mul_assoc := mul_assoc_aux
  mul_comm a b := by apply ext <;> simp <;> ring
  one_mul := one_mul_aux
  mul_one := mul_one_aux
  zero_mul a := by apply ext <;> simp
  mul_zero a := by apply ext <;> simp
  left_distrib a b c := by apply ext <;> simp <;> ring
  right_distrib a b c := by apply ext <;> simp <;> ring
  nsmul := nsmulRec
  zsmul := zsmulRec
  npow n a := a ^ n
  npow_zero a := power_zero a
  npow_succ := pow_succ_aux
  natCast_zero := by apply ext <;> rfl
  natCast_succ n := by
    change lift ((n + 1 : ℕ) : Goldilocks) = lift n + 1
    apply ext <;> simp [lift]

def liftHom : Goldilocks →+* Cubic where
  toFun := lift
  map_one' := rfl
  map_mul' a b := by apply ext <;> simp [lift]
  map_zero' := rfl
  map_add' a b := by apply ext <;> simp [lift]

@[simp] theorem liftHom_apply (a : Goldilocks) : liftHom a = lift a := rfl

theorem scale_eq_mul_lift (s : Goldilocks) (a : Cubic) : a.scale s = a * lift s := by
  apply ext <;> simp [scale, lift]

def valueAt (r : Goldilocks) (a : Cubic) : Goldilocks := a.c0 + a.c1 * r + a.c2 * r ^ 2

theorem valueAt_mul {r : Goldilocks} (hr : r ^ 3 - r + 1 = 0) (a b : Cubic) :
    valueAt r (a * b) = valueAt r a * valueAt r b := by
  simp only [valueAt, mul_c0, mul_c1, mul_c2]
  linear_combination
    -(a.c1 * b.c2 + a.c2 * b.c1 + a.c2 * b.c2 * r) * hr

theorem valueAt_pow {r : Goldilocks} (hr : r ^ 3 - r + 1 = 0) (a : Cubic) (e : ℕ) :
    valueAt r (a ^ e) = valueAt r a ^ e :=
  map_power (valueAt r) (by simp [valueAt]) (valueAt_mul hr) a e

/-- The residue of `X` to the power `2 ^ 32`. -/
def frobeniusHalf : Cubic := ⟨4313033625783026847, 14322987502044991736, 13756005300681981762⟩

/-- The residue of `X` to the power `2 ^ 64`. -/
def frobeniusFull : Cubic := ⟨15890331032454968110, 14052839707969102485, 2012697817756225988⟩

def frobeniusGapInverse : Cubic :=
  ⟨11161140678374918632, 14304577333300898507, 12619507027527961167⟩

theorem frobeniusHalf_eq : (fun a : Cubic => a * a)^[32] ⟨0, 1, 0⟩ = frobeniusHalf := by
  decide +kernel

theorem frobeniusFull_eq : (fun a : Cubic => a * a)^[32] frobeniusHalf = frobeniusFull := by
  decide +kernel

theorem frobeniusGap_mul :
    (frobeniusFull - frobeniusHalf) * frobeniusGapInverse = 1 := by
  decide +kernel

theorem iterate_square {M : Type} [Monoid M] (a : M) (n : ℕ) :
    (fun a => a * a)^[n] a = a ^ 2 ^ n := by
  simp only [← pow_two, pow_iterate]

theorem valueAt_frobeniusHalf {r : Goldilocks} (hr : r ^ 3 - r + 1 = 0) :
    valueAt r frobeniusHalf = r ^ 2 ^ 32 := by
  rw [← frobeniusHalf_eq, iterate_square, valueAt_pow hr]
  congr 1
  simp [valueAt]

theorem valueAt_frobeniusFull {r : Goldilocks} (hr : r ^ 3 - r + 1 = 0) :
    valueAt r frobeniusFull = r ^ 2 ^ 64 := by
  rw [← frobeniusFull_eq, iterate_square, valueAt_pow hr, valueAt_frobeniusHalf hr, ← pow_mul,
    ← pow_add]

theorem rootless (r : Goldilocks) : r ^ 3 - r + 1 ≠ 0 := by
  intro hr
  have hr0 : r ≠ 0 := by
    rintro rfl
    simp at hr
  have hpow : r ^ 2 ^ 64 * r = r ^ 2 ^ 32 * r := by
    calc r ^ 2 ^ 64 * r = r ^ Goldilocks.modulus * r ^ 2 ^ 32 := by
          rw [← pow_succ, ← pow_add]
          congr 1
      _ = r ^ 2 ^ 32 * r := by rw [Goldilocks.pow_modulus, mul_comm]
  have hgap : valueAt r (frobeniusFull - frobeniusHalf) = 0 := by
    have hsub : valueAt r (frobeniusFull - frobeniusHalf) =
        valueAt r frobeniusFull - valueAt r frobeniusHalf := by
      simp only [valueAt, sub_c0, sub_c1, sub_c2]
      ring
    rw [hsub, valueAt_frobeniusFull hr, valueAt_frobeniusHalf hr,
      mul_right_cancel₀ hr0 hpow, sub_self]
  have hone := congrArg (valueAt r) frobeniusGap_mul
  rw [valueAt_mul hr, hgap, zero_mul] at hone
  simp [valueAt] at hone

theorem mul_cofactor (a : Cubic) : a * a.cofactor = lift a.norm := by
  apply ext <;> simp [cofactor, norm, lift] <;> ring

theorem cofactor_cofactor (a : Cubic) : a.cofactor.cofactor = a * lift a.norm := by
  apply ext <;> simp [cofactor, norm, lift] <;> ring

/-- A zero cofactor would give the ratio of two coefficients as a root. -/
theorem eq_zero_of_cofactor {a : Cubic} (h : a.cofactor = 0) : a = 0 := by
  have h1 : (a.c1 - a.c2) * a.c2 - a.c1 * (a.c0 + a.c2) = 0 := congrArg c1 h
  have h2 : a.c1 * a.c1 - (a.c0 + a.c2) * a.c2 = 0 := congrArg c2 h
  have h0 : (a.c0 + a.c2) * (a.c0 + a.c2) - (a.c1 - a.c2) * a.c1 = 0 := congrArg c0 h
  have hc2 : a.c2 = 0 := by
    by_contra hne
    refine rootless (a.c1 / a.c2) ?_
    field_simp
    linear_combination a.c1 * h2 - a.c2 * h1
  have hc1 : a.c1 = 0 := by simpa [hc2] using h2
  have hc0 : a.c0 = 0 := by simpa [hc2, hc1] using h0
  exact ext hc0 hc1 hc2

theorem norm_ne_zero {a : Cubic} (h : a ≠ 0) : a.norm ≠ 0 := by
  intro hn
  refine h (eq_zero_of_cofactor (eq_zero_of_cofactor ?_))
  rw [cofactor_cofactor, hn]
  exact mul_zero a

theorem mul_inv_of_ne_zero (a : Cubic) (h : a ≠ 0) : a * a⁻¹ = 1 := by
  change a * a.cofactor.scale a.norm⁻¹ = 1
  rw [scale_eq_mul_lift, ← mul_assoc, mul_cofactor, ← liftHom_apply, ← liftHom_apply, ← map_mul,
    mul_inv_cancel₀ (norm_ne_zero h), map_one]

theorem inv_zero_eq : (0 : Cubic)⁻¹ = 0 := by
  change (cofactor 0).scale _ = 0
  apply ext <;> simp [scale, cofactor]

instance : Field Cubic where
  exists_pair_ne := ⟨0, 1, by decide⟩
  mul_inv_cancel := mul_inv_of_ne_zero
  inv_zero := inv_zero_eq
  div_eq_mul_inv _ _ := rfl
  zpow_neg' _ _ := congrArg Inv.inv rfl
  nnqsmul := _
  nnqsmul_def _ _ := rfl
  qsmul := _
  qsmul_def _ _ := rfl

def equivTriple : Cubic ≃ Goldilocks × Goldilocks × Goldilocks where
  toFun a := (a.c0, a.c1, a.c2)
  invFun t := ⟨t.1, t.2.1, t.2.2⟩
  left_inv _ := rfl
  right_inv _ := rfl

instance : Finite Cubic := Finite.of_equiv _ equivTriple.symm

theorem card_eq : Nat.card Cubic = Goldilocks.modulus ^ 3 := by
  rw [Nat.card_congr equivTriple, Nat.card_prod, Nat.card_prod, Goldilocks.card_eq]
  ring

end TapeAir.Cubic
