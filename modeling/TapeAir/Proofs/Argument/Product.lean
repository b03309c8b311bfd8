import Mathlib.Algebra.Polynomial.BigOperators
import Mathlib.Algebra.Polynomial.Roots
import Mathlib.Data.Set.Card
import TapeAir.Constraint.Compression
import TapeAir.Proofs.Argument.Triple
import TapeAir.Proofs.Field.Extension
/-! # Products at a point

The product of a collection is the value at the point of a monic polynomial whose roots are the
collection. Different collections have different polynomials, and those agree at no more points
than they have roots. Compressed with the powers of one element of the extension, different triples
stay different.
-/
namespace TapeAir

section Products
variable {F : Type} [Field F]
open Polynomial

noncomputable def rootPolynomial (s : Multiset F) : F[X] := (s.map fun a => X - C a).prod

theorem eval_rootPolynomial (s : Multiset F) (x : F) :
    (rootPolynomial s).eval x = (s.map fun a => x - a).prod := by
  rw [rootPolynomial, eval_multiset_prod, Multiset.map_map]
  simp

theorem rootPolynomial_injective {s t : Multiset F} (h : rootPolynomial s = rootPolynomial t) :
    s = t := by
  rw [← roots_multiset_prod_X_sub_C s, ← roots_multiset_prod_X_sub_C t]
  exact congrArg Polynomial.roots h

/-- Different polynomials have the same value at no more points than the degree of either allows. -/
theorem encard_eval_eq_le {p q : F[X]} (h : p ≠ q) {n : ℕ} (hp : p.natDegree ≤ n)
    (hq : q.natDegree ≤ n) : {x | p.eval x = q.eval x}.encard ≤ n := by
  have hne : p - q ≠ 0 := sub_ne_zero.mpr h
  have hdegree : (p - q).natDegree ≤ n := (natDegree_sub_le p q).trans (max_le hp hq)
  classical
  have hroots : {x | p.eval x = q.eval x} = ((p - q).roots.toFinset : Set F) := by
    ext x
    rw [Finset.mem_coe, Multiset.mem_toFinset, mem_roots hne, IsRoot.def, eval_sub, sub_eq_zero,
      Set.mem_ofPred_eq]
  rw [hroots, Set.encard_coe_eq_coe_finsetCard]
  exact_mod_cast (Multiset.toFinset_card_le _).trans ((card_roots' _).trans hdegree)

/-- Different collections have the same product at no more points than the larger has members. -/
theorem encard_product_eq_le {s t : Multiset F} (h : s ≠ t) :
    {x | (s.map fun a => x - a).prod = (t.map fun a => x - a).prod}.encard ≤
      (max s.card t.card : ℕ) := by
  have hdegree (u : Multiset F) : (rootPolynomial u).natDegree = u.card :=
    natDegree_multiset_prod_X_sub_C_eq_card u
  have hcount := encard_eval_eq_le (fun he => h (rootPolynomial_injective he))
    ((hdegree s).trans_le (le_max_left _ _)) ((hdegree t).trans_le (le_max_right _ _))
  simpa only [eval_rootPolynomial] using hcount

theorem eq_of_forall_product_eq {s t : Multiset F} (hs : s.card < Nat.card F)
    (ht : t.card < Nat.card F)
    (h : ∀ x, (s.map fun a => x - a).prod = (t.map fun a => x - a).prod) : s = t := by
  by_contra hne
  have hcount := encard_product_eq_le hne
  have huniv : {x | (s.map fun a => x - a).prod = (t.map fun a => x - a).prod} = Set.univ :=
    Set.eq_univ_of_forall h
  have : Finite F := Nat.finite_of_card_ne_zero (by omega)
  rw [huniv, Set.encard_univ, ENat.card_eq_coe_natCard, Nat.cast_le] at hcount
  omega

end Products

namespace Weights

def compress (w : Weights Cubic) (x : Triple) : Cubic :=
  w.first * .lift x.1 + w.second * .lift x.2.1 + w.third * .lift x.2.2

theorem factor_eq (w : Weights Cubic) (x : Triple) :
    w.factor (.lift x.1) (.lift x.2.1) (.lift x.2.2) = w.point - w.compress x := by
  rw [factor, compress]
  ring

def powers (point : Cubic) : Weights Cubic := ⟨point, 1, ⟨0, 1, 0⟩, ⟨0, 0, 1⟩⟩

theorem compress_powers_injective (point : Cubic) : Function.Injective (powers point).compress := by
  have h (x : Triple) : (powers point).compress x = Cubic.equivTriple.symm x := by
    apply Cubic.ext <;> simp [powers, compress, Cubic.equivTriple, Cubic.lift]
  intro x y hxy
  rw [h, h] at hxy
  exact Cubic.equivTriple.symm.injective hxy

end Weights

end TapeAir
