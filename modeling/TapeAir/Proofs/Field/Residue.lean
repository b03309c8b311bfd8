import Mathlib.Data.Int.ModEq
import TapeAir.Calculator.Operator
import TapeAir.Proofs.Field.Descent
/-! # Integers as residues

An integer of any size and sign stands for its residue, and the operations on residues are those on
integers. The quotient by a residue that is not zero is the one that the field has, and by zero it is
zero. A Euclidean descent of integers finds the same inverses as the power that computes them.
-/
namespace TapeAir

namespace Goldilocks
variable {a b : ℤ}

theorem ofInt_eq_intCast (z : ℤ) : ofInt z = z := rfl

theorem val_ofInt (z : ℤ) : ((ofInt z).val : ℤ) = z % modulus := by
  have hpos : (0 : ℤ) < modulus := by exact_mod_cast modulus_pos
  have hnonneg : 0 ≤ z % modulus := Int.emod_nonneg z hpos.ne'
  have hlt : z % modulus < modulus := Int.emod_lt_of_pos z hpos
  change (((z % modulus).toNat % modulus : ℕ) : ℤ) = z % modulus
  rw [Nat.mod_eq_of_lt (by omega), Int.toNat_of_nonneg hnonneg]

theorem ofInt_eq_zero_iff {z : ℤ} : ofInt z = 0 ↔ (modulus : ℤ) ∣ z :=
  CharP.intCast_eq_zero_iff Goldilocks modulus z

theorem ofInt_add (a b : ℤ) : ofInt (a + b) = ofInt a + ofInt b := Int.cast_add a b

theorem ofInt_sub (a b : ℤ) : ofInt (a - b) = ofInt a - ofInt b := Int.cast_sub a b

theorem ofInt_mul (a b : ℤ) : ofInt (a * b) = ofInt a * ofInt b := Int.cast_mul a b

theorem ofInt_emod (z : ℤ) : ofInt (z % modulus) = ofInt z := by
  rw [ofInt, ofInt, Int.emod_emod_of_dvd z dvd_rfl]

theorem ofInt_val (a : Goldilocks) : ofInt a.val = a := by
  rw [ofInt_eq_intCast, Int.cast_natCast]
  exact natCast_val a

theorem val_mul_emod (a : Goldilocks) (i : ℤ) :
    (a.val * i) % modulus = ((a * ofInt i).val : ℤ) := by
  rw [← val_ofInt, ofInt_mul, ofInt_val]

/-- The descent finds the representative of the inverse in the field. -/
theorem finds_inv (z : ℤ) : Descent.Finds modulus z (ofInt z)⁻¹.val := by
  by_cases hz : z % modulus = 0
  · have hzero : ofInt z = 0 := ofInt_eq_zero_iff.mpr (Int.dvd_of_emod_eq_zero hz)
    rw [hzero, inv_zero]
    exact .multiple hz
  · have hone : (1 : ℤ) < modulus := by exact_mod_cast modulus_prime.one_lt
    have hnonneg : 0 ≤ z % modulus := Int.emod_nonneg z (by omega)
    have hndvd : ¬(modulus : ℤ) ∣ z % modulus := by
      rwa [Int.dvd_iff_emod_eq_zero, Int.emod_emod_of_dvd z dvd_rfl]
    have hprime : Prime (modulus : ℤ) := Nat.prime_iff_prime_int.mp modulus_prime
    have hcoprime : IsCoprime (z % modulus) (modulus : ℤ) :=
      (hprime.coprime_iff_not_dvd.mpr hndvd).symm
    obtain ⟨e, hloop, hdvd⟩ := Descent.exists_loop hone hnonneg hcoprime
    have hinverse : ofInt e.lowFactor * ofInt z = 1 := by
      have hsub : ofInt (e.lowFactor * (z % modulus) - 1) = 0 := ofInt_eq_zero_iff.mpr hdvd
      rw [ofInt_sub, ofInt_mul, ofInt_emod, sub_eq_zero] at hsub
      exact hsub
    rw [← eq_inv_of_mul_eq_one_left hinverse, val_ofInt]
    exact .factor hz hloop

theorem finds_iff {z i : ℤ} : Descent.Finds modulus z i ↔ i = (ofInt z)⁻¹.val := by
  constructor
  · intro h
    exact (finds_inv z).unique h
  · rintro rfl
    exact finds_inv z

/-- The inverse of the residue of `b`: an inverse of it unless `b` is a multiple of the modulus. -/
structure IsInverse (b : ℤ) (c : Goldilocks) : Prop where
  cancels : ¬(modulus : ℤ) ∣ b → ofInt b * c = 1
  zero : (modulus : ℤ) ∣ b → c = 0
  found : ∀ i, Descent.Finds modulus b i ↔ i = c.val

theorem isInverse_inv (b : ℤ) : IsInverse b (ofInt b)⁻¹ where
  cancels h := mul_inv_cancel₀ (mt ofInt_eq_zero_iff.mp h)
  zero h := by rw [ofInt_eq_zero_iff.mpr h, inv_zero]
  found _ := finds_iff

/-- The quotient of the residues of `a` and `b`, which restores that of `a` unless `b` is a multiple
of the modulus. -/
structure IsQuotient (a b : ℤ) (c : Goldilocks) : Prop where
  restores : ¬(modulus : ℤ) ∣ b → c * ofInt b = ofInt a
  zero : (modulus : ℤ) ∣ b → c = 0
  computed : ∀ i, Descent.Finds modulus b i → (c.val : ℤ) = (ofInt a).val * i % modulus

theorem isQuotient_div (a b : ℤ) : IsQuotient a b (ofInt a / ofInt b) where
  restores h := div_mul_cancel₀ _ (mt ofInt_eq_zero_iff.mp h)
  zero h := by rw [ofInt_eq_zero_iff.mpr h, div_zero]
  computed i h := by
    rw [finds_iff.mp h, val_mul_emod, ofInt_val, div_eq_mul_inv]

end Goldilocks

open Goldilocks

/-- An operator takes the residues of two integers to `c`, and does so too where one of the operands
is the integer itself. -/
structure Operator.Gives (op : Operator) (a b : ℤ) (c : Goldilocks) : Prop where
  residues : op.apply (.base (ofInt a)) (.base (ofInt b)) = .ok (.base c)
  integerRight : op.apply (.base (ofInt a)) (.int b) = .ok (.base c)
  integerLeft : op.apply (.int a) (.base (ofInt b)) = .ok (.base c)

theorem Operator.gives_ofBase (op : Operator) (a b : ℤ) :
    op.Gives a b (op.ofBase (ofInt a) (ofInt b)) where
  residues := rfl
  integerRight := rfl
  integerLeft := rfl

/-- Integers are read as the residues that they are congruent to, and arithmetic on these is
arithmetic on integers modulo the prime, with quotients that are zero only where they must be. -/
theorem Goldilocks.arithmetic_of_integers (a b : ℤ) :
    (∃ r, (Value.int a).toGoldilocks = .ok r ∧ r.val < modulus ∧ r.val ≡ a [ZMOD modulus]) ∧
      (∃ c, Operator.add.Gives a b c ∧ (c.val : ℤ) = (a + b) % modulus) ∧
      (∃ c, Operator.sub.Gives a b c ∧ (c.val : ℤ) = (a - b) % modulus) ∧
      (∃ c, Operator.mul.Gives a b c ∧ (c.val : ℤ) = a * b % modulus) ∧
      (∃ c, Operator.div.Gives a b c ∧ IsQuotient a b c) ∧
      ∃ c, (Value.base (ofInt b)).invert = .ok (.base c) ∧ IsInverse b c := by
  refine ⟨⟨ofInt a, rfl, val_lt _, ?_⟩, ⟨_, Operator.gives_ofBase _ a b, ?_⟩,
    ⟨_, Operator.gives_ofBase _ a b, ?_⟩, ⟨_, Operator.gives_ofBase _ a b, ?_⟩,
    ⟨_, Operator.gives_ofBase _ a b, isQuotient_div a b⟩, ⟨_, rfl, isInverse_inv b⟩⟩
  · rw [val_ofInt]
    exact Int.mod_modEq a modulus
  · rw [← val_ofInt, ofInt_add]
    rfl
  · rw [← val_ofInt, ofInt_sub]
    rfl
  · rw [← val_ofInt, ofInt_mul]
    rfl

end TapeAir
