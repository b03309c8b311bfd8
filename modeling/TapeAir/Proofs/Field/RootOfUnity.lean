import Mathlib.GroupTheory.OrderOfElement
import TapeAir.Proofs.Field.PowerOfTwo
import TapeAir.Proofs.Field.Prime
/-! # Orders of roots of unity

Half the order of the multiplicative group does not take the generator to one. So the root of unity
that is asked for has exactly the order that is asked for, for each power of two that divides the
order of the group.
-/
namespace TapeAir

theorem isPowerOfTwo_iff_exists {n : ℤ} : isPowerOfTwo n ↔ ∃ e : ℕ, n = 2 ^ e := by
  by_cases hn : 0 ≤ n
  · lift n to ℕ using hn
    rw [isPowerOfTwo_iff, Nat.isPowerOfTwo]
    norm_cast
  · constructor
    · intro h
      simp only [isPowerOfTwo, Bool.and_eq_true, decide_eq_true_eq] at h
      omega
    · rintro ⟨e, rfl⟩
      exact absurd (by positivity) hn

namespace Goldilocks

theorem generator_pow_half : generator ^ ((modulus - 1) / 2) ≠ 1 := by decide +kernel

theorem generator_pow_order : generator ^ (modulus - 1) = 1 := by decide +kernel

def root (e : ℕ) : Goldilocks := generator ^ ((modulus - 1) / 2 ^ e)

theorem two_pow_dvd_order {e : ℕ} (he : e ≤ 32) : 2 ^ e ∣ modulus - 1 := by
  have hfactors : modulus - 1 = 2 ^ 32 * 4294967295 := by decide
  rw [hfactors]
  exact (Nat.pow_dvd_pow 2 he).mul_right _

/-- A root to the power of a smaller order is the root for what remains. -/
theorem root_pow {e d : ℕ} (h : d ≤ e) (he : e ≤ 32) : root e ^ 2 ^ d = root (e - d) := by
  have hpow : (modulus - 1) / 2 ^ e * 2 ^ d = (modulus - 1) / 2 ^ (e - d) := by
    obtain ⟨c, hc⟩ := two_pow_dvd_order he
    have hsplit : 2 ^ e = 2 ^ (e - d) * 2 ^ d := by rw [← pow_add, Nat.sub_add_cancel h]
    rw [hc, Nat.mul_div_cancel_left c (by positivity), hsplit, mul_assoc,
      Nat.mul_div_cancel_left _ (by positivity), mul_comm]
  rw [root, ← pow_mul, hpow, root]

theorem root_zero : root 0 = 1 := by
  rw [root, pow_zero, Nat.div_one, generator_pow_order]

theorem orderOf_root {e : ℕ} (he : e ≤ 32) : orderOf (root e) = 2 ^ e := by
  cases e with
  | zero => rw [root_zero, orderOf_one, pow_zero]
  | succ e =>
    apply orderOf_eq_prime_pow
    · rw [root_pow e.le_succ he, Nat.succ_eq_add_one, Nat.add_sub_cancel_left]
      exact generator_pow_half
    · rw [root_pow le_rfl he, Nat.sub_self, root_zero]

theorem rootOfUnity_two_pow {e : ℕ} (he : e ≤ 32) : rootOfUnity (2 ^ e) = .ok (root e) := by
  have hle : ¬((2 : ℤ) ^ e > maximalOrder) := by
    have : (2 : ℤ) ^ e ≤ 2 ^ 32 := pow_le_pow_right₀ (by decide) he
    exact Int.not_lt.mpr this
  have hnat : ((2 : ℤ) ^ e).toNat = 2 ^ e := by
    rw [← Nat.cast_two, ← Nat.cast_pow, Int.toNat_natCast]
  rw [rootOfUnity, isPowerOfTwo_iff_exists.mpr ⟨e, rfl⟩, if_neg (by decide), if_neg hle, hnat]
  rfl

theorem rootOfUnity_tooLarge {e : ℕ} (he : 32 < e) :
    rootOfUnity (2 ^ e) = .error (.tooLarge (2 ^ e)) := by
  have hgt : (2 : ℤ) ^ e > maximalOrder := by
    have : (2 : ℤ) ^ 32 < 2 ^ e := pow_lt_pow_right₀ (by decide) he
    exact this
  rw [rootOfUnity, isPowerOfTwo_iff_exists.mpr ⟨e, rfl⟩, if_neg (by decide), if_pos hgt]

theorem rootOfUnity_notPowerOfTwo {n : ℤ} (h : ¬∃ e : ℕ, n = 2 ^ e) :
    rootOfUnity n = .error (.notPowerOfTwo n) := by
  have hno : isPowerOfTwo n = false := by
    rw [Bool.eq_false_iff]
    exact fun hn => h (isPowerOfTwo_iff_exists.mp hn)
  rw [rootOfUnity, hno, if_pos (by decide)]

variable {n : ℤ} {w : Goldilocks}

theorem rootOfUnity_cases (n : ℤ) :
    (∃ e ≤ 32, n = 2 ^ e ∧ rootOfUnity n = .ok (root e)) ∨
      (∃ e > 32, n = 2 ^ e ∧ rootOfUnity n = .error (.tooLarge n)) ∨
      (¬∃ e : ℕ, n = 2 ^ e) ∧ rootOfUnity n = .error (.notPowerOfTwo n) := by
  by_cases h : ∃ e : ℕ, n = 2 ^ e
  · obtain ⟨e, rfl⟩ := h
    by_cases he : e ≤ 32
    · exact .inl ⟨e, he, rfl, rootOfUnity_two_pow he⟩
    · exact .inr (.inl ⟨e, Nat.lt_of_not_le he, rfl, rootOfUnity_tooLarge (Nat.lt_of_not_le he)⟩)
  · exact .inr (.inr ⟨h, rootOfUnity_notPowerOfTwo h⟩)

theorem rootOfUnity_eq_ok_iff : rootOfUnity n = .ok w ↔ ∃ e ≤ 32, n = 2 ^ e ∧ w = root e := by
  constructor
  · intro h
    rcases rootOfUnity_cases n with ⟨e, he, hn, hroot⟩ | ⟨_, _, _, hroot⟩ | ⟨_, hroot⟩
    · exact ⟨e, he, hn, Except.ok.inj (h.symm.trans hroot)⟩
    · cases h.symm.trans hroot
    · cases h.symm.trans hroot
  · rintro ⟨e, he, rfl, rfl⟩
    exact rootOfUnity_two_pow he

theorem rootOfUnity_eq_tooLarge_iff :
    rootOfUnity n = .error (.tooLarge n) ↔ ∃ e > 32, n = 2 ^ e := by
  constructor
  · intro h
    rcases rootOfUnity_cases n with ⟨_, _, _, hroot⟩ | ⟨e, he, hn, -⟩ | ⟨_, hroot⟩
    · cases h.symm.trans hroot
    · exact ⟨e, he, hn⟩
    · cases h.symm.trans hroot
  · rintro ⟨e, he, rfl⟩
    exact rootOfUnity_tooLarge he

theorem rootOfUnity_eq_notPowerOfTwo_iff :
    rootOfUnity n = .error (.notPowerOfTwo n) ↔ ¬∃ e : ℕ, n = 2 ^ e := by
  constructor
  · intro h
    rcases rootOfUnity_cases n with ⟨_, _, _, hroot⟩ | ⟨_, _, _, hroot⟩ | ⟨hn, -⟩
    · cases h.symm.trans hroot
    · cases h.symm.trans hroot
    · exact hn
  · exact rootOfUnity_notPowerOfTwo

theorem exists_rootOfUnity_iff : (∃ w, rootOfUnity n = .ok w) ↔ ∃ e ≤ 32, n = 2 ^ e := by
  constructor
  · rintro ⟨w, hw⟩
    obtain ⟨e, he, hn, -⟩ := rootOfUnity_eq_ok_iff.mp hw
    exact ⟨e, he, hn⟩
  · rintro ⟨e, he, rfl⟩
    exact ⟨_, rootOfUnity_two_pow he⟩

theorem orderOf_of_rootOfUnity (h : rootOfUnity n = .ok w) : (orderOf w : ℤ) = n := by
  obtain ⟨e, he, rfl, rfl⟩ := rootOfUnity_eq_ok_iff.mp h
  rw [orderOf_root he, Nat.cast_pow, Nat.cast_two]

end Goldilocks

end TapeAir
