import TapeAir.Proofs.Calculator.Polynomial
import TapeAir.Proofs.Poly.Powers
/-! # Evaluation is a homomorphism

At a point over its own field a polynomial has a value, the sum of its terms, and every operation on
polynomials is the operation of the field on their values. Integers take part as constants. They
need a list of exponents, and the only failure is that there are too many of these for a word.
-/
namespace TapeAir
variable {s : Shape} {point : List s.level.Carrier}

namespace Outcome

def Takes (x : Outcome s) (point : List s.level.Carrier) (a : s.level.Carrier) : Prop :=
  ∃ p : s.Poly, x = ofPoly p ∧ AnyPoly.eval ⟨s, p⟩ (s.coordinates point) = .ok a

def TakesOnceListable (x : Outcome s) (point : List s.level.Carrier) (a : s.level.Carrier) : Prop :=
  x.OnceListable fun y => y.Takes point a

theorem takes_of_eval (h : (point.length : ℤ) = s.arity) {x : Outcome s} {p : s.Poly}
    {a : s.level.Carrier} (hx : x = ofPoly p)
    (ha : p.eval ⟨point.toArray, Shape.toNat_arity h⟩ = a) : x.Takes point a :=
  ⟨p, hx, (Shape.eval_coordinates h p).trans (congrArg Except.ok ha)⟩

theorem Takes.unique {x : Outcome s} {a b : s.level.Carrier} (ha : x.Takes point a)
    (hb : x.Takes point b) : a = b := by
  obtain ⟨p, rfl, ha⟩ := ha
  obtain ⟨q, hq, hb⟩ := hb
  obtain rfl := ofPoly_injective hq
  exact Except.ok.inj (ha.symm.trans hb)

end Outcome

/-- A polynomial `p` made from `q` takes a value at a point, however it is made: as an outcome `x`
of the calculator, or by `make` from a dictionary that lists `q`. -/
structure TakesAsMade (q p : s.Poly) (x : Outcome s)
    (make : Dictionary s.level.Carrier → Except PolyError (Dictionary s.level.Carrier))
    (point : List s.level.Carrier) (a : s.level.Carrier) : Prop where
  polynomial : (Outcome.ofPoly p).Takes point a
  outcome : x.TakesOnceListable point a
  dictionary : ∀ d, q.Lists s.arity d →
    ∃ e, make d = .ok e ∧ p.Lists s.arity e ∧ e.evaluate point = a

theorem TakesAsMade.ofEval (h : (point.length : ℤ) = s.arity) {q p : s.Poly} {x : Outcome s}
    {make : Dictionary s.level.Carrier → Except PolyError (Dictionary s.level.Carrier)}
    {a : s.level.Carrier} (hvalue : p.eval ⟨point.toArray, Shape.toNat_arity h⟩ = a)
    (hx : x = .onceListable (.ofPoly p))
    (hmake : ∀ d, q.Lists s.arity d → ∃ e, make d = .ok e ∧ p.Lists s.arity e) :
    TakesAsMade q p x make point a where
  polynomial := Outcome.takes_of_eval h rfl hvalue
  outcome := hx ▸ Outcome.onceListable_holds (Outcome.takes_of_eval h rfl hvalue)
  dictionary d hd := by
    obtain ⟨e, he, hlist⟩ := hmake d hd
    exact ⟨e, he, hlist, (hlist.evaluate_self (Shape.toNat_arity h)).trans hvalue⟩

namespace Outcome

/-- Evaluating a sum, a difference, a negative or a product gives that of the values. -/
theorem evaluation_homomorphism (h : (point.length : ℤ) = s.arity) (p q : s.Poly) (c : ℤ) :
    ∃ a b : s.level.Carrier,
      (ofPoly p).Takes point a ∧ (ofPoly q).Takes point b ∧
      a = (p.terms.map fun t => t.2 * (List.zipWith (· ^ ·) point t.1.toList).prod).sum ∧
      (∀ d, Poly.Lists s.arity d p → d.evaluate point = a) ∧
      (ofPoly p + ofPoly q).Takes point (a + b) ∧
      (ofPoly p - ofPoly q).Takes point (a - b) ∧
      (-ofPoly p).Takes point (-a) ∧
      (ofPoly p * ofPoly q).Takes point (a * b) ∧
      TakesAsMade p (p + .const c) (ofPoly p + ofValue (.int c))
        (fun d => do Dictionary.add s.arity d (← Dictionary.const s.arity (c : s.level.Carrier)))
        point (a + c) ∧
      TakesAsMade p (.const c - p) (ofValue (.int c) - ofPoly p)
        (fun d => do Dictionary.sub s.arity (← Dictionary.const s.arity (c : s.level.Carrier)) d)
        point (c - a) ∧
      TakesAsMade p (.const c * p) (ofValue (.int c) * ofPoly p)
        (fun d => do Dictionary.mul s.arity d (← Dictionary.const s.arity (c : s.level.Carrier)))
        point (c * a) := by
  have hlength := Shape.toNat_arity h
  have harity : 0 ≤ s.arity := h ▸ Int.natCast_nonneg _
  obtain ⟨k, hk, hconst⟩ :=
    Poly.exists_const (Int.toNat_of_nonneg harity) (c : s.level.Carrier)
  refine ⟨p.eval ⟨point.toArray, hlength⟩, q.eval ⟨point.toArray, hlength⟩,
    takes_of_eval h rfl rfl, takes_of_eval h rfl rfl, ?_, fun d hd => hd.evaluate_self hlength,
    takes_of_eval h (ofPoly_add p q) (Poly.eval_add _ p q),
    takes_of_eval h (ofPoly_sub p q) (Poly.eval_sub _ p q),
    takes_of_eval h (ofPoly_neg p) (Poly.eval_neg _ p),
    takes_of_eval h (ofPoly_mul p q) (Poly.eval_mul _ p q),
    .ofEval h ?_ ?_ fun d hd => ?_, .ofEval h ?_ ?_ fun d hd => ?_, .ofEval h ?_ ?_ fun d hd => ?_⟩
  · rw [Poly.eval_eq_sum hlength, Poly.dictionary, List.map_map]
    rfl
  -- the sum with the integer on the right
  · rw [Poly.eval_add, Poly.eval_const]
  · exact (combine_int_right p .add (by decide) c harity).trans
      (congrArg onceListable (ofPoly_add _ _))
  · rw [hk]
    exact hd.add hconst
  -- the difference with the integer on the left
  · rw [Poly.eval_sub, Poly.eval_const]
  · exact (combine_int_left p .sub (by decide) c harity).trans
      (congrArg onceListable (ofPoly_sub _ _))
  · rw [hk]
    exact hconst.sub hd
  -- the product, for which the dictionary takes the integer on the right
  · rw [Poly.eval_mul, Poly.eval_const]
  · exact (combine_int_left p .mul (by decide) c harity).trans
      (congrArg onceListable (ofPoly_mul _ _))
  · rw [hk, mul_comm]
    exact hd.mul hconst

theorem conjugates_homomorphism :
    let s : Shape := ⟨.ext, 2⟩
    let x : Cubic := ⟨0, 1, 0⟩
    let p : s.Poly := .X 0 + .X 1
    let q : s.Poly := .X 0 - .X 1
    (([x, 1] : List s.level.Carrier).length : ℤ) = s.arity ∧
      (ofPoly p * ofPoly q).Takes [x, 1] (⟨-1, 0, 1⟩ : Cubic) ∧
      (ofValue (.int (-4)) - ofPoly p).Takes [x, 1] (⟨-5, -1, 0⟩ : Cubic) := by
  intro s x p q
  have hlength : (([x, 1] : List s.level.Carrier).length : ℤ) = s.arity := rfl
  have hp : (ofPoly p).Takes [x, 1] (⟨1, 1, 0⟩ : Cubic) := ⟨p, rfl, by decide +kernel⟩
  have hq : (ofPoly q).Takes [x, 1] (⟨-1, 1, 0⟩ : Cubic) := ⟨q, rfl, by decide +kernel⟩
  obtain ⟨a, b, ha, hb, -, -, -, -, -, hmul, -, hsub, -⟩ :=
    evaluation_homomorphism hlength p q (-4)
  obtain rfl := ha.unique hp
  obtain rfl := hb.unique hq
  have hproduct : (⟨1, 1, 0⟩ * ⟨-1, 1, 0⟩ : s.level.Carrier) = (⟨-1, 0, 1⟩ : Cubic) := by
    decide +kernel
  have hdifference : (((-4 : ℤ) : s.level.Carrier) - ⟨1, 1, 0⟩) = (⟨-5, -1, 0⟩ : Cubic) := by
    decide +kernel
  exact ⟨hlength, hproduct ▸ hmul, hdifference ▸ hsub.outcome⟩

end Outcome

end TapeAir
