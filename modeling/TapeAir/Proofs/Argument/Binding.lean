import Mathlib.Algebra.Polynomial.Eval.Degree
import TapeAir.Proofs.Argument.Evaluation
import TapeAir.Proofs.Argument.Product
/-! # What an evaluation binds

An evaluation is the value of a polynomial that has the symbols as coefficients, the last one as the
constant. Zeros in front of the symbols do not change that polynomial. Apart from them, different
symbols have different polynomials, and those agree at fewer points than there are symbols.
-/
namespace TapeAir

def collisions (s t : List Goldilocks) : Set Cubic :=
  {point | evaluation point (s.map Cubic.lift) = evaluation point (t.map Cubic.lift)}

section Polynomials
open Polynomial

noncomputable def symbolPolynomial (xs : List Cubic) : Cubic[X] :=
  xs.foldl (fun p x => p * X + C x) 0

theorem symbolPolynomial_concat (xs : List Cubic) (x : Cubic) :
    symbolPolynomial (xs ++ [x]) = symbolPolynomial xs * X + C x := by
  rw [symbolPolynomial, List.foldl_append]
  rfl

theorem eval_symbolPolynomial (point : Cubic) (xs : List Cubic) :
    (symbolPolynomial xs).eval point = evaluation point xs := by
  induction xs using List.reverseRecOn with
  | nil => exact eval_zero
  | append_singleton xs x ih =>
    rw [symbolPolynomial_concat, evaluation_concat, eval_add, eval_mul_X, eval_C, ih]

theorem coeff_symbolPolynomial (xs : List Cubic) (n : ℕ) :
    (symbolPolynomial xs).coeff n = xs.reverse[n]?.getD 0 := by
  induction xs using List.reverseRecOn generalizing n with
  | nil => exact coeff_zero n
  | append_singleton xs x ih =>
    rw [symbolPolynomial_concat, List.reverse_concat, coeff_add]
    cases n with
    | zero =>
      rw [coeff_mul_X_zero, coeff_C_zero, zero_add]
      rfl
    | succ n => rw [coeff_mul_X, coeff_C_succ, add_zero, ih, List.getElem?_cons_succ]

theorem natDegree_symbolPolynomial_le (xs : List Cubic) :
    (symbolPolynomial xs).natDegree ≤ xs.length - 1 := by
  rw [natDegree_le_iff_coeff_eq_zero]
  intro n hn
  rw [coeff_symbolPolynomial, List.getElem?_eq_none (by rw [List.length_reverse]; omega)]
  rfl

theorem symbolPolynomial_injective {xs ys : List Cubic} (hlength : xs.length = ys.length)
    (h : symbolPolynomial xs = symbolPolynomial ys) : xs = ys := by
  refine List.reverse_injective (List.ext_getElem (by simpa using hlength) fun n hx hy => ?_)
  have hcoeff := congrArg (coeff · n) h
  rwa [coeff_symbolPolynomial, coeff_symbolPolynomial, List.getElem?_eq_getElem hx,
    List.getElem?_eq_getElem hy] at hcoeff

end Polynomials

theorem encard_collisions_le {s t : List Goldilocks} (hlength : s.length = t.length) (hne : s ≠ t) :
    (collisions s t).encard ≤ (s.length - 1 : ℕ) := by
  have hlift : Function.Injective Cubic.lift := fun _ _ => Cubic.lift_injective
  have hpolynomial : symbolPolynomial (s.map Cubic.lift) ≠ symbolPolynomial (t.map Cubic.lift) := by
    intro h
    have hlengths : (s.map Cubic.lift).length = (t.map Cubic.lift).length := by simpa using hlength
    exact hne (List.map_injective_iff.mpr hlift (symbolPolynomial_injective hlengths h))
  have hs := natDegree_symbolPolynomial_le (s.map Cubic.lift)
  have ht := natDegree_symbolPolynomial_le (t.map Cubic.lift)
  rw [List.length_map] at hs ht
  have hcount := encard_eval_eq_le hpolynomial hs (hlength ▸ ht)
  simpa only [collisions, eval_symbolPolynomial] using hcount

section LeadingZeros

theorem evaluation_zero_cons (point : Cubic) (xs : List Cubic) :
    evaluation point (0 :: xs) = evaluation point xs := by
  rw [evaluation, List.foldl_cons, zero_mul, add_zero, evaluation]

variable (point : Cubic) (s : List Goldilocks)

theorem evaluation_dropWhile :
    evaluation point ((s.dropWhile (· = 0)).map Cubic.lift) =
      evaluation point (s.map Cubic.lift) := by
  induction s with
  | nil => rfl
  | cons x s ih =>
    by_cases hx : x = 0
    · rw [List.dropWhile_cons_of_pos (by simpa using hx), ih, hx]
      exact (evaluation_zero_cons point _).symm
    · rw [List.dropWhile_cons_of_neg (by simpa using hx)]

theorem dropWhile_leftpad (n : ℕ) :
    (s.leftpad n 0).dropWhile (· = 0) = s.dropWhile (· = 0) := by
  rw [List.leftpad, List.dropWhile_append_of_pos]
  intro x hx
  exact decide_eq_true (List.eq_of_mem_replicate hx)

theorem evaluation_leftpad (n : ℕ) :
    evaluation point ((s.leftpad n 0).map Cubic.lift) = evaluation point (s.map Cubic.lift) := by
  rw [← evaluation_dropWhile, dropWhile_leftpad, evaluation_dropWhile]

end LeadingZeros

/-- Lists that differ in leading zeros alone have the same evaluation everywhere. Others have it at
fewer points than the longer one has symbols, and so do different lists of one length. -/
theorem evaluation_binds (s t : List Goldilocks) :
    (s.dropWhile (· = 0) = t.dropWhile (· = 0) → ∀ point, point ∈ collisions s t) ∧
    (s.dropWhile (· = 0) ≠ t.dropWhile (· = 0) →
      (collisions s t).encard ≤ (max s.length t.length - 1 : ℕ)) ∧
    (s.length = t.length → s ≠ t → (collisions s t).encard ≤ (s.length - 1 : ℕ)) := by
  refine ⟨?_, ?_, encard_collisions_le⟩
  · intro h point
    change evaluation point _ = evaluation point _
    rw [← evaluation_dropWhile, h, evaluation_dropWhile]
  · intro hne
    -- with zeros in front of the shorter list both have the same length
    let n := max s.length t.length
    have hs : (s.leftpad n 0).length = n := by rw [List.length_leftpad]; omega
    have ht : (t.leftpad n 0).length = n := by rw [List.length_leftpad]; omega
    have hpadded : s.leftpad n 0 ≠ t.leftpad n 0 := by
      intro h
      exact hne (by rw [← dropWhile_leftpad s n, h, dropWhile_leftpad])
    have hcount := encard_collisions_le (hs.trans ht.symm) hpadded
    rw [hs] at hcount
    simpa only [collisions, evaluation_leftpad] using hcount

theorem swapped_collisions :
    (∀ point, point ∈ collisions [0, 1, (2 : ℕ)] [1, (2 : ℕ)]) ∧
      (collisions [1, (2 : ℕ)] [(2 : ℕ), 1, 0]).encard ≤ (2 : ℕ) ∧
      (collisions [1, (2 : ℕ)] [(2 : ℕ), 1]).encard ≤ (1 : ℕ) := by
  refine ⟨?_, ?_, ?_⟩
  · exact (evaluation_binds [0, 1, (2 : ℕ)] [1, (2 : ℕ)]).1 (by decide)
  · exact (evaluation_binds [1, (2 : ℕ)] [(2 : ℕ), 1, 0]).2.1 (by decide)
  · exact (evaluation_binds [1, (2 : ℕ)] [(2 : ℕ), 1]).2.2 rfl (by decide)

end TapeAir
