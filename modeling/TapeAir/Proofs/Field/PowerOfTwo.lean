import Mathlib.Algebra.Group.Nat.Defs
import TapeAir.Field.RootOfUnity
/-! # The next power of two

It is the least power of two that is at least the number that it is asked for.
-/
namespace TapeAir

theorem le_nextPowerOfTwo (n : ℕ) : n ≤ nextPowerOfTwo n := by
  rw [nextPowerOfTwo]
  split
  · omega
  · split
    · omega
    · rw [Int.toNat_natCast, Nat.one_shiftLeft]
      have := Nat.lt_log2_self (n := n - 1)
      omega

theorem isPowerOfTwo_nextPowerOfTwo {n : ℕ} (h : n ≠ 0) : (nextPowerOfTwo n).isPowerOfTwo := by
  rw [nextPowerOfTwo, if_neg (by omega)]
  split
  · exact Nat.isPowerOfTwo_one
  · exact ⟨_, Nat.one_shiftLeft _⟩

theorem nextPowerOfTwo_le {n m : ℕ} (hm : m.isPowerOfTwo) (h : n ≤ m) : nextPowerOfTwo n ≤ m := by
  obtain ⟨e, rfl⟩ := hm
  rw [nextPowerOfTwo]
  split
  · exact Nat.zero_le _
  · split
    · exact Nat.one_le_two_pow
    · have hlog : (n - 1).log2 < e := (Nat.log2_lt (by omega)).mpr (by omega)
      rw [Int.toNat_natCast, Nat.one_shiftLeft]
      exact Nat.pow_le_pow_right Nat.two_pos hlog

theorem nextPowerOfTwo_eq_self {n : ℕ} (h : n.isPowerOfTwo) : nextPowerOfTwo n = n :=
  Nat.le_antisymm (nextPowerOfTwo_le h (Nat.le_refl n)) (le_nextPowerOfTwo n)

theorem nextPowerOfTwo_two_pow (e : ℕ) : nextPowerOfTwo (2 ^ e : ℕ) = 2 ^ e :=
  nextPowerOfTwo_eq_self ⟨e, rfl⟩

theorem nextPowerOfTwo_nextPowerOfTwo (n : ℕ) :
    nextPowerOfTwo (nextPowerOfTwo n) = nextPowerOfTwo n := by
  by_cases h : n = 0
  · subst h
    rfl
  · exact nextPowerOfTwo_eq_self (isPowerOfTwo_nextPowerOfTwo h)

theorem isPowerOfTwo_iff {n : ℕ} : isPowerOfTwo n ↔ n.isPowerOfTwo := by
  have hpos : (1 : ℤ) ≤ n ↔ n ≠ 0 := by omega
  rw [isPowerOfTwo, Int.toNat_natCast, ← Nat.ne_zero_and_sub_one_eq_zero_iff_isPowerOfTwo]
  simp [hpos]

/-- Without the test for a positive number zero passes too. -/
theorem and_pred_eq_zero_iff {n : ℕ} : n &&& (n - 1) = 0 ↔ n = 0 ∨ n.isPowerOfTwo := by
  by_cases h : n = 0
  · simp [h]
  · rw [Nat.and_sub_one_eq_zero_iff_isPowerOfTwo h, or_iff_right h]

end TapeAir
