import TapeAir.Poly.Mixed
import TapeAir.Proofs.Field.Level
import TapeAir.Proofs.Poly.Evaluation
/-! # Points whose coordinates belong to one level

If every coordinate is an element of the level of the polynomial, nothing is refused, and the value
is that at the point of these elements.
-/
namespace TapeAir.Poly
variable {l : Level} {n : ℕ}

def AtLevel (l : Level) (point : Vector (Option Element) n) (values : Vector l.Carrier n) : Prop :=
  ∀ i, (point.get i).bind (Element.toLevel? l) = some (values.get i)

variable {point : Vector (Option Element) n} {values : Vector l.Carrier n}

theorem termValue?_eq (h : AtLevel l point values) (m : Monomial n) (c : l.Carrier) :
    termValue? l point m c = some (termValue values m c) := by
  rw [termValue?, termValue, Fin.foldl_eq_finRange_foldl]
  induction List.finRange n generalizing c with
  | nil => rfl
  | cons i is ih =>
    obtain ⟨x, hx, hvalue⟩ := Option.bind_eq_some_iff.mp (h i)
    rw [List.foldlM_cons, List.foldl_cons, hx]
    by_cases hm : m.get i = 0
    · rw [if_pos hm, if_pos hm]
      exact ih c
    · rw [if_neg hm, if_neg hm, Option.bind_some, Level.timesPower?_eq, hvalue]
      exact ih _

theorem evalMixed?_eq (h : AtLevel l point values) (p : Poly l.Carrier n) :
    evalMixed? l p point = some (p.eval values) := by
  rw [evalMixed?, eval]
  generalize (0 : l.Carrier) = acc
  induction p.terms generalizing acc with
  | nil => rfl
  | cons t ts ih =>
    rw [List.foldlM_cons, List.foldl_cons, termValue?_eq h]
    exact ih _

end TapeAir.Poly
