import Mathlib.Algebra.BigOperators.Fin
import Mathlib.Algebra.BigOperators.Ring.List
import Mathlib.Tactic.Ring
import TapeAir.Proofs.Poly.Collection
/-! # Evaluation keeps the ring operations

The value of a list of terms is the sum of their values, and collecting equal exponents does not
change it. So every operation on polynomials is the operation on their values.
-/
namespace TapeAir.Poly

theorem vector_get_eq {α : Type} {n : ℕ} (v : Vector α n) (i : Fin n) : v.get i = v[i.val] := rfl

section Terms
variable {F : Type} [CommRing F] {n : ℕ} (point : Vector F n)

/-- A term's value is its coefficient times a power of each coordinate. -/
theorem termValue_eq (m : Monomial n) (c : F) :
    termValue point m c = c * ∏ i, point.get i ^ m.get i := by
  have hstep (acc : F) (i : Fin n) :
      (if m.get i = 0 then acc else acc * point.get i ^ m.get i) =
        acc * point.get i ^ m.get i := by
    split
    · next h => rw [h, pow_zero, mul_one]
    · rfl
  simp only [termValue, hstep]
  rw [Fin.foldl_eq_finRange_foldl, ← List.prod_ofFn, List.ofFn_eq_map]
  generalize List.finRange n = is
  induction is generalizing c with
  | nil => simp
  | cons i is ih => simp [ih, mul_assoc]

theorem termValue_mul (s t : Monomial n) (c d : F) :
    termValue point (s.mul t) (c * d) = termValue point s c * termValue point t d := by
  have hget (i : Fin n) : (s.mul t).get i = s.get i + t.get i := by
    simp [Monomial.mul, vector_get_eq]
  simp only [termValue_eq, hget, pow_add, Finset.prod_mul_distrib]
  ring

def termsValue (ts : List (Term F n)) : F := (ts.map fun t => termValue point t.1 t.2).sum

@[simp] theorem termsValue_nil : termsValue point ([] : List (Term F n)) = 0 := rfl

@[simp] theorem termsValue_cons (t : Term F n) (ts : List (Term F n)) :
    termsValue point (t :: ts) = termValue point t.1 t.2 + termsValue point ts := by
  simp [termsValue]

theorem eval_eq_termsValue (p : Poly F n) : p.eval point = termsValue point p.terms := by
  have hfold (ts : List (Term F n)) (acc : F) :
      ts.foldl (fun acc t => acc + termValue point t.1 t.2) acc = acc + termsValue point ts := by
    induction ts generalizing acc with
    | nil => simp
    | cons t ts ih => rw [List.foldl_cons, ih, termsValue_cons, add_assoc]
  rw [eval, hfold, zero_add]

@[simp] theorem eval_zero : (0 : Poly F n).eval point = 0 := rfl

theorem termValue_zero (m : Monomial n) : termValue point m (0 : F) = 0 := by
  rw [termValue_eq, zero_mul]

theorem termValue_add (m : Monomial n) (c d : F) :
    termValue point m (c + d) = termValue point m c + termValue point m d := by
  simp only [termValue_eq, add_mul]

def termValueHom (m : Monomial n) : F →+ F where
  toFun := termValue point m
  map_zero' := termValue_zero point m
  map_add' := termValue_add point m

theorem termsValue_eq_termsSum (ts : List (Term F n)) :
    termsValue point ts = termsSum (termValueHom point) ts := rfl

end Terms

section Collection
variable {F : Type} [CommRing F] [DecidableEq F] {n : ℕ} (point : Vector F n)

theorem eval_addTerms (p : Poly F n) (ts : List (Term F n)) :
    (p.addTerms ts).eval point = p.eval point + termsValue point ts := by
  simp only [eval_eq_termsValue, termsValue_eq_termsSum, termsSum_addTerms]

theorem eval_ofTerms (ts : List (Term F n)) : (ofTerms ts).eval point = termsValue point ts := by
  rw [ofTerms, eval_addTerms]
  exact zero_add _

@[simp] theorem eval_const (c : F) : (const c : Poly F n).eval point = c := by
  have hunit (i : Fin n) : (Monomial.unit : Monomial n).get i = 0 := by
    simp [Monomial.unit, vector_get_eq]
  rw [const, eval_ofTerms, termsValue_cons, termsValue_nil, add_zero, termValue_eq]
  simp [hunit]

@[simp] theorem eval_one : (1 : Poly F n).eval point = 1 := eval_const point 1

@[simp] theorem eval_natCast (k : ℕ) : (k : Poly F n).eval point = k := eval_const point k

@[simp] theorem eval_add (p q : Poly F n) : (p + q).eval point = p.eval point + q.eval point := by
  change (p.addTerms q.terms).eval point = _
  rw [eval_addTerms, ← eval_eq_termsValue]

@[simp] theorem eval_neg (p : Poly F n) : (-p).eval point = -p.eval point := by
  change (ofTerms (p.terms.map fun t => (t.1, -t.2))).eval point = _
  rw [eval_ofTerms, eval_eq_termsValue, termsValue_eq_termsSum, termsSum_neg]
  rfl

@[simp] theorem eval_sub (p q : Poly F n) : (p - q).eval point = p.eval point - q.eval point := by
  change (p + -q).eval point = _
  rw [eval_add, eval_neg, sub_eq_add_neg]

omit [DecidableEq F] in
theorem termsValue_mulTerms (ss ts : List (Term F n)) :
    termsValue point (mulTerms ss ts) = termsValue point ss * termsValue point ts :=
  termsSum_mulTerms (φ := termValueHom point) (termValue_mul point) ss ts

@[simp] theorem eval_mul (p q : Poly F n) : (p * q).eval point = p.eval point * q.eval point := by
  change (ofTerms (mulTerms p.terms q.terms)).eval point = _
  rw [eval_ofTerms, termsValue_mulTerms, ← eval_eq_termsValue, ← eval_eq_termsValue]

theorem eval_X {i : ℕ} (h : i < n) : (X i : Poly F n).eval point = point.get ⟨i, h⟩ := by
  have hsingle (j : Fin n) :
      (Monomial.single i : Monomial n).get j = if j = ⟨i, h⟩ then 1 else 0 := by
    simp [Monomial.single, vector_get_eq, Fin.ext_iff]
  rw [X, if_pos h, eval_ofTerms, termsValue_cons, termsValue_nil, add_zero, termValue_eq]
  simp [hsingle]

end Collection

end TapeAir.Poly
