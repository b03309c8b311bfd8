import Mathlib.FieldTheory.Finite.Basic
import Mathlib.NumberTheory.LucasPrimality
import Mathlib.Tactic.NormNum.Prime
import Mathlib.Tactic.ReduceModChar
import TapeAir.Field.Goldilocks
/-! # The prime field is a field

The modulus is prime, since 7 has full order modulo it. The residues are the integers modulo that
prime under another name, and the field laws come back along the identification; inversion by the
power of Fermat's little theorem is inversion.
-/
namespace TapeAir

/-- Repeated squaring becomes a power under every map to a monoid that keeps products. -/
theorem map_power {α M : Type} [One α] [Mul α] [Monoid M] (f : α → M) (h1 : f 1 = 1)
    (hm : ∀ a b, f (a * b) = f a * f b) (a : α) (e : ℕ) : f (power a e) = f a ^ e := by
  induction e using Nat.strong_induction_on generalizing a with
  | h e ih =>
    rcases Nat.eq_zero_or_pos e with rfl | he
    · rw [power_zero, pow_zero, h1]
    · have hlt : e / 2 < e := by omega
      have hsq : f (a * a) ^ (e / 2) = f a ^ (2 * (e / 2)) := by rw [hm, pow_mul, pow_two]
      rcases Nat.mod_two_eq_zero_or_one e with h | h
      · rw [power_even a he.ne' h, ih _ hlt, hsq]
        congr 1
        omega
      · rw [power_odd a h, hm, ih _ hlt, hsq, ← pow_succ]
        congr 1
        omega

namespace Goldilocks

theorem modulus_prime : modulus.Prime := by
  have hf : 18446744069414584321 - 1 = 2 ^ 32 * 3 * 5 * 17 * 257 * 65537 := by norm_num
  refine lucas_primality 18446744069414584321 7 (by reduce_mod_char) fun q hq hd => ?_
  have hq' : q ∈ [2, 3, 5, 17, 257, 65537] := by
    rw [hf] at hd
    simp only [hq.dvd_mul, List.mem_cons, List.not_mem_nil, or_false] at hd ⊢
    rcases hd with ((((hd | hd) | hd) | hd) | hd) | hd
    · exact .inl ((Nat.prime_dvd_prime_iff_eq hq (by norm_num)).mp (hq.dvd_of_dvd_pow hd))
    all_goals
      have := (Nat.prime_dvd_prime_iff_eq hq (by norm_num)).mp hd
      omega
  simp only [List.mem_cons, List.not_mem_nil, or_false] at hq'
  rcases hq' with rfl | rfl | rfl | rfl | rfl | rfl <;> norm_num <;> reduce_mod_char <;>
    decide +kernel

instance : Fact modulus.Prime := ⟨modulus_prime⟩

theorem modulus_pos : 0 < modulus := modulus_prime.pos

def toZMod (a : Goldilocks) : ZMod modulus := a.val

theorem toZMod_injective : Function.Injective toZMod := by
  intro a b h
  have hv : a.val % modulus = b.val % modulus := (ZMod.natCast_eq_natCast_iff' _ _ _).mp h
  rw [Nat.mod_eq_of_lt a.val_lt, Nat.mod_eq_of_lt b.val_lt] at hv
  exact ext hv

@[simp] theorem toZMod_natCast (n : ℕ) : toZMod (n : Goldilocks) = n := by
  simp [toZMod, val_natCast]

@[simp] theorem toZMod_zero : toZMod 0 = 0 := by simp [toZMod, val_zero]

@[simp] theorem toZMod_one : toZMod 1 = 1 := by simp [toZMod, val_one]

@[simp] theorem toZMod_add (a b : Goldilocks) : toZMod (a + b) = toZMod a + toZMod b := by
  simp [toZMod, val_add]

@[simp] theorem toZMod_mul (a b : Goldilocks) : toZMod (a * b) = toZMod a * toZMod b := by
  simp [toZMod, val_mul]

@[simp] theorem toZMod_neg (a : Goldilocks) : toZMod (-a) = -toZMod a := by
  simp [toZMod, val_neg, Nat.cast_sub a.val_lt.le]

@[simp] theorem toZMod_sub (a b : Goldilocks) : toZMod (a - b) = toZMod a - toZMod b := by
  simp [toZMod, val_sub, Nat.cast_sub b.val_lt.le, sub_eq_add_neg]

theorem toZMod_pow (a : Goldilocks) (n : ℕ) : toZMod (a ^ n) = toZMod a ^ n :=
  map_power toZMod toZMod_one toZMod_mul a n

@[simp] theorem toZMod_intCast (z : ℤ) : toZMod (z : Goldilocks) = z := by
  have hp : (0 : ℤ) < modulus := by exact_mod_cast modulus_pos
  change toZMod (((z % modulus).toNat : ℕ) : Goldilocks) = z
  rw [toZMod_natCast, ← Int.cast_natCast, Int.toNat_of_nonneg (Int.emod_nonneg z hp.ne'),
    ZMod.intCast_mod]

instance : CommRing Goldilocks where
  add_assoc a b c := toZMod_injective (by simp [add_assoc])
  zero_add a := toZMod_injective (by simp)
  add_zero a := toZMod_injective (by simp)
  add_comm a b := toZMod_injective (by simp [add_comm])
  neg_add_cancel a := toZMod_injective (by simp)
  sub_eq_add_neg a b := toZMod_injective (by simp [sub_eq_add_neg])
  mul_assoc a b c := toZMod_injective (by simp [mul_assoc])
  mul_comm a b := toZMod_injective (by simp [mul_comm])
  one_mul a := toZMod_injective (by simp)
  mul_one a := toZMod_injective (by simp)
  zero_mul a := toZMod_injective (by simp)
  mul_zero a := toZMod_injective (by simp)
  left_distrib a b c := toZMod_injective (by simp [mul_add])
  right_distrib a b c := toZMod_injective (by simp [add_mul])
  nsmul := nsmulRec
  zsmul := zsmulRec
  npow n a := a ^ n
  npow_zero a := power_zero a
  npow_succ n a := toZMod_injective (by simp only [toZMod_pow, toZMod_mul, pow_succ])
  natCast_zero := toZMod_injective (by simp)
  natCast_succ n := toZMod_injective (by simp)
  intCast_ofNat n := toZMod_injective (by simp)
  intCast_negSucc n := toZMod_injective (by simp)

def equivZMod : Goldilocks ≃+* ZMod modulus where
  toFun := toZMod
  invFun z := ofNat z.val
  left_inv a := ext (by
    change (toZMod a).val % modulus = a.val
    rw [toZMod, ZMod.val_natCast, Nat.mod_mod, Nat.mod_eq_of_lt a.val_lt])
  right_inv z := by
    change toZMod ((z.val : ℕ) : Goldilocks) = z
    rw [toZMod_natCast, ZMod.natCast_zmod_val]
  map_mul' := toZMod_mul
  map_add' := toZMod_add

theorem mul_inv_of_ne_zero (a : Goldilocks) (h : a ≠ 0) : a * a⁻¹ = 1 := by
  apply toZMod_injective
  have hz : toZMod a ≠ 0 := fun e => h (toZMod_injective (e.trans toZMod_zero.symm))
  change toZMod (a * a ^ (modulus - 2)) = toZMod 1
  rw [toZMod_mul, toZMod_pow, ← pow_succ', toZMod_one]
  exact ZMod.pow_card_sub_one_eq_one hz

theorem inv_zero_eq : (0 : Goldilocks)⁻¹ = 0 := by
  change (0 : Goldilocks) ^ (modulus - 2) = 0
  exact zero_pow (by decide)

instance : Field Goldilocks where
  exists_pair_ne := ⟨0, 1, by decide⟩
  mul_inv_cancel := mul_inv_of_ne_zero
  inv_zero := inv_zero_eq
  div_eq_mul_inv _ _ := rfl
  -- The inverse is a very large power, so it must stay folded where this law is checked.
  zpow_neg' _ _ := congrArg Inv.inv rfl
  nnqsmul := _
  nnqsmul_def _ _ := rfl
  qsmul := _
  qsmul_def _ _ := rfl

instance : CharP Goldilocks modulus :=
  (equivZMod.toRingHom.charP_iff equivZMod.injective modulus).mpr inferInstance

instance : Finite Goldilocks := Finite.of_equiv _ equivZMod.symm.toEquiv

theorem card_eq : Nat.card Goldilocks = modulus := by
  rw [Nat.card_congr equivZMod.toEquiv, Nat.card_zmod]

theorem natCast_val_of_lt {n : ℕ} (h : n < modulus) : (n : Goldilocks).val = n := by
  rw [val_natCast, Nat.mod_eq_of_lt h]

theorem natCast_inj_of_lt {m n : ℕ} (hm : m < modulus) (hn : n < modulus)
    (h : (m : Goldilocks) = n) : m = n := by
  have hv := congrArg val h
  rwa [natCast_val_of_lt hm, natCast_val_of_lt hn] at hv

theorem natCast_add_modulus (n : ℕ) : ((n + modulus : ℕ) : Goldilocks) = n := by
  rw [Nat.cast_add, CharP.cast_eq_zero Goldilocks modulus, add_zero]

theorem pow_modulus (a : Goldilocks) : a ^ modulus = a := by
  apply toZMod_injective
  rw [toZMod_pow, ZMod.pow_card]

end Goldilocks

end TapeAir
