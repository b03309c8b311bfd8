import TapeAir.Field.Level
import TapeAir.Proofs.Field.Extension
/-! # Both levels are finite fields

What holds in every field is stated once, for the carrier of a level.
-/
namespace TapeAir.Level
variable (l : Level)

instance : Sub l.Carrier := match l with
  | .base => inferInstanceAs (Sub Goldilocks)
  | .ext => inferInstanceAs (Sub Cubic)

instance : Pow l.Carrier ℕ := match l with
  | .base => inferInstanceAs (Pow Goldilocks ℕ)
  | .ext => inferInstanceAs (Pow Cubic ℕ)

instance : IntCast l.Carrier := match l with
  | .base => inferInstanceAs (IntCast Goldilocks)
  | .ext => inferInstanceAs (IntCast Cubic)

instance : Inv l.Carrier := match l with
  | .base => inferInstanceAs (Inv Goldilocks)
  | .ext => inferInstanceAs (Inv Cubic)

instance : Div l.Carrier := match l with
  | .base => inferInstanceAs (Div Goldilocks)
  | .ext => inferInstanceAs (Div Cubic)

-- The operations stay those of a variable level, so every law is looked up at each of the two.
instance : Field l.Carrier where
  add_assoc := by cases l <;> exact add_assoc
  zero_add := by cases l <;> exact zero_add
  add_zero := by cases l <;> exact add_zero
  add_comm := by cases l <;> exact add_comm
  neg_add_cancel := by cases l <;> exact neg_add_cancel
  sub_eq_add_neg := by cases l <;> exact sub_eq_add_neg
  mul_assoc := by cases l <;> exact mul_assoc
  mul_comm := by cases l <;> exact mul_comm
  one_mul := by cases l <;> exact one_mul
  mul_one := by cases l <;> exact mul_one
  zero_mul := by cases l <;> exact zero_mul
  mul_zero := by cases l <;> exact mul_zero
  left_distrib := by cases l <;> exact left_distrib
  right_distrib := by cases l <;> exact right_distrib
  nsmul := nsmulRec
  zsmul := zsmulRec
  npow n a := a ^ n
  npow_zero := by cases l <;> exact pow_zero
  npow_succ n a := by cases l <;> exact pow_succ a n
  natCast_zero := by cases l <;> exact Nat.cast_zero
  natCast_succ := by cases l <;> exact Nat.cast_succ
  intCast_ofNat := by cases l <;> exact Int.cast_natCast
  intCast_negSucc := by cases l <;> exact Int.cast_negSucc
  exists_pair_ne := by cases l <;> exact exists_pair_ne _
  mul_inv_cancel _ := by cases l <;> exact mul_inv_cancel₀
  inv_zero := by cases l <;> exact inv_zero
  div_eq_mul_inv := by cases l <;> exact div_eq_mul_inv
  zpow_neg' _ _ := congrArg Inv.inv rfl
  nnqsmul := _
  nnqsmul_def _ _ := rfl
  qsmul := _
  qsmul_def _ _ := rfl

instance : Finite l.Carrier := by cases l <;> infer_instance

def size : Level → ℕ
  | .base => Goldilocks.modulus
  | .ext => Goldilocks.modulus ^ 3

theorem natCast_inj {m k : ℕ} : (m : l.Carrier) = k ↔ (m : Goldilocks) = k := by
  cases l with
  | base => rfl
  | ext => exact ⟨Cubic.lift_injective, congrArg Cubic.lift⟩

theorem card_carrier : Nat.card l.Carrier = l.size := by
  cases l with
  | base => exact Goldilocks.card_eq
  | ext => exact Cubic.card_eq

end TapeAir.Level

namespace TapeAir

/-- The element of a level that an element of either field is: at the extension, base elements are
lifted. -/
def Element.toLevel? : (l : Level) → Element → Option l.Carrier
  | .base, .base a => some a
  | .base, .ext _ => none
  | .ext, .base a => some (Cubic.lift a)
  | .ext, .ext x => some x

theorem Element.toLevel?_ofLevel (l : Level) (a : l.Carrier) :
    (ofScalar (.ofLevel l a)).toLevel? l = some a := by
  cases l <;> rfl

theorem Cubic.lift_pow (a : Goldilocks) (e : ℕ) : Cubic.lift (a ^ e) = Cubic.lift a ^ e :=
  map_pow liftHom a e

theorem Level.timesPower?_eq (l : Level) (c : l.Carrier) (x : Element) (e : ℕ) :
    l.timesPower? c x e = (x.toLevel? l).map fun a => c * a ^ e := by
  cases l with
  | base => cases x <;> rfl
  | ext =>
    cases x with
    | base a =>
      change some (Cubic.scale (a ^ e) c) = some (c * Cubic.lift a ^ e)
      rw [Cubic.scale_eq_mul_lift, Cubic.lift_pow]
    | ext x => rfl

end TapeAir
