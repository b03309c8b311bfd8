import TapeAir.Proofs.Calculator.Reachable
import TapeAir.Proofs.Poly.Expansion
/-! # Canonical form

What arises is stored without zeros and with as many exponents as there are variables. Hence two
polynomials compare as equal when they are equal as formal sums, and the laws of commutative rings
hold for the polynomials and their comparison, as well as for the dictionaries that list them.
-/
namespace TapeAir

/-- What is stored for a polynomial: exponents that differ, as many as there are variables, and
under them no coefficient that is zero. -/
structure AnyPoly.Canonical (p : AnyPoly) : Prop where
  distinct : (p.poly.dictionary.map Prod.fst).Nodup
  exponents : ∀ t ∈ p.poly.dictionary, (t.1.length : ℤ) = p.shape.arity
  nonzero : ∀ t ∈ p.poly.dictionary, t.2 ≠ 0

theorem AnyPoly.canonical_iff_fits {p : AnyPoly} : p.Canonical ↔ p.Fits where
  mp h := ⟨.refl _, List.forall_mem_map.mpr h.exponents⟩
  mpr h :=
    { distinct := p.poly.trimmed_dictionary.keys
      exponents := List.forall_mem_map.mp h.fits
      nonzero := p.poly.trimmed_dictionary.nonzero }

/-- The operations on dictionaries are those on the polynomials that these list. -/
structure Dictionary.Computes {F : Type} [CommRing F] [DecidableEq F] {n : ℕ} (arity : ℤ)
    (d e : Dictionary F) (p q : Poly F n) : Prop where
  add : ∃ f, Dictionary.add arity d e = .ok f ∧ (p + q).Lists arity f
  sub : ∃ f, Dictionary.sub arity d e = .ok f ∧ (p - q).Lists arity f
  neg : ∃ f, Dictionary.neg arity d = .ok f ∧ (-p).Lists arity f
  mul : ∃ f, Dictionary.mul arity d e = .ok f ∧ (p * q).Lists arity f
  const : (n : ℤ) = arity → ∀ c, ∃ f, Dictionary.const arity c = .ok f ∧
    (Poly.const c : Poly F n).Lists arity f
  agree : Dictionary.agree d e ↔ p = q

theorem Dictionary.Computes.ofLists {F : Type} [CommRing F] [DecidableEq F] {n : ℕ} {arity : ℤ}
    {d e : Dictionary F} {p q : Poly F n} (hp : p.Lists arity d) (hq : q.Lists arity e) :
    Dictionary.Computes arity d e p q where
  add := hp.add hq
  sub := hp.sub hq
  neg := hp.neg
  mul := hp.mul hq
  const h c := Poly.exists_const h c
  agree := Poly.agree_iff hp hq

namespace Outcome
variable {s : Shape}

def Same (x y : Outcome s) : Prop :=
  ∃ u v, x = ofValue u ∧ y = ofValue v ∧ Comparison.eq.apply u v = .ok true

theorem same_ofPoly {p q : s.Poly} : (ofPoly p).Same (ofPoly q) ↔ p = q := by
  constructor
  · rintro ⟨u, v, hu, hv, h⟩
    cases hu
    cases hv
    exact Comparison.eq_poly_iff.mp h
  · exact fun h => ⟨_, _, rfl, rfl, Comparison.eq_poly_iff.mpr h⟩

def SameOnceListable (x y : Outcome s) : Prop := x.OnceListable fun z => z.Same y

theorem onceListable_mul (x : Outcome s) (p : s.Poly) :
    onceListable x * ofPoly p = onceListable (x * ofPoly p) := by
  apply ext
  change (do
    Operator.mul.apply (← (onceListable x).value) (.poly ⟨s, p⟩) : Except Error Value) = _
  rw [onceListable, onceListable]
  cases s.checkListable <;> rfl

theorem mul_onceListable (p : s.Poly) (x : Outcome s) :
    ofPoly p * onceListable x = onceListable (ofPoly p * x) := by
  apply ext
  change (do
    Operator.mul.apply (.poly ⟨s, p⟩) (← (onceListable x).value) : Except Error Value) = _
  rw [onceListable, onceListable]
  cases s.checkListable <;> rfl

structure RingLaws (x y z : Outcome s) : Prop where
  add_assoc : (x + y + z).Same (x + (y + z))
  add_comm : (x + y).Same (y + x)
  zero_add : (0 + x).Same x
  add_zero : (x + 0).Same x
  sub_self : (x - x).Same 0
  add_neg_self : (x + -x).Same 0
  sub_eq_add_neg : (x - y).Same (x + -y)
  mul_assoc : (x * y * z).Same (x * (y * z))
  mul_comm : (x * y).Same (y * x)
  one_mul : (ofPoly 1 * x).Same x
  mul_one : (x * ofPoly 1).Same x
  int_one_mul : 0 ≤ s.arity → (1 * x).SameOnceListable x
  mul_int_one : 0 ≤ s.arity → (x * 1).SameOnceListable x
  mul_add : (x * (y + z)).Same (x * y + x * z)
  add_mul : ((x + y) * z).Same (x * z + y * z)

theorem ringLaws (p q r : s.Poly) : RingLaws (ofPoly p) (ofPoly q) (ofPoly r) where
  add_assoc := by simp only [ofPoly_add, same_ofPoly, add_assoc]
  add_comm := by simp only [ofPoly_add, same_ofPoly, add_comm]
  zero_add := by simp only [zero_eq, ofPoly_add, same_ofPoly, zero_add]
  add_zero := by simp only [zero_eq, ofPoly_add, same_ofPoly, add_zero]
  sub_self := by simp only [zero_eq, ofPoly_sub, same_ofPoly, sub_self]
  add_neg_self := by simp only [zero_eq, ofPoly_neg, ofPoly_add, same_ofPoly, add_neg_cancel]
  sub_eq_add_neg := by simp only [ofPoly_neg, ofPoly_add, ofPoly_sub, same_ofPoly, sub_eq_add_neg]
  mul_assoc := by simp only [ofPoly_mul, same_ofPoly, mul_assoc]
  mul_comm := by simp only [ofPoly_mul, same_ofPoly, mul_comm]
  one_mul := by simp only [ofPoly_mul, same_ofPoly, one_mul]
  mul_one := by simp only [ofPoly_mul, same_ofPoly, mul_one]
  int_one_mul h := by
    rw [one_eq h, onceListable_mul, ofPoly_mul, one_mul]
    exact onceListable_holds (same_ofPoly.mpr rfl)
  mul_int_one h := by
    rw [one_eq h, mul_onceListable, ofPoly_mul, mul_one]
    exact onceListable_holds (same_ofPoly.mpr rfl)
  mul_add := by simp only [ofPoly_add, ofPoly_mul, same_ofPoly, mul_add]
  add_mul := by simp only [ofPoly_add, ofPoly_mul, same_ofPoly, add_mul]

end Outcome

/-- The polynomials that arise are those in canonical form. They make a commutative ring under the
operations and the comparison of the calculator, and in their dictionaries as well. -/
theorem AnyPoly.canonical_ring :
    (∀ p : AnyPoly, p.Reachable ↔ p.Canonical) ∧
      ∀ (s : Shape) (p q r : s.Poly), Outcome.RingLaws (.ofPoly p) (.ofPoly q) (.ofPoly r) ∧
        ∀ d e, p.Lists s.arity d → q.Lists s.arity e → Dictionary.Computes s.arity d e p q :=
  ⟨fun _ => reachable_iff_fits.trans canonical_iff_fits.symm, fun _ p q r =>
    ⟨Outcome.ringLaws p q r, fun _ _ hp hq => .ofLists hp hq⟩⟩

theorem AnyPoly.difference_of_squares_canonical :
    let s : Shape := ⟨.base, 2⟩
    let p : s.Poly := .X 0 + .X 1
    let q : s.Poly := .X 0 - .X 1
    let d : Dictionary Goldilocks := [([1, 0], 1), ([0, 1], 1)]
    let e : Dictionary Goldilocks := [([1, 0], 1), ([0, 1], -1)]
    Reachable ⟨s, p * q⟩ ∧ Canonical ⟨s, p * q⟩ ∧ p.Lists s.arity d ∧ q.Lists s.arity e ∧
      Dictionary.mul s.arity d e = .ok [([2, 0], 1), ([0, 2], -1)] ∧
      (p * q).Lists s.arity [([2, 0], 1), ([0, 2], -1)] ∧
      0 ≤ s.arity ∧ (1 * Outcome.ofPoly p).Same (.ofPoly p) := by
  intro s p q d e
  have harises : Reachable ⟨s, p * q⟩ := reachable_of_nonneg (by decide) _
  have hd : p.Lists s.arity d := ⟨by decide +kernel, by simp [Dictionary.Fits, d, s]⟩
  have he : q.Lists s.arity e := ⟨by decide +kernel, by simp [Dictionary.Fits, e, s]⟩
  obtain ⟨hlaws, hcomputes⟩ := canonical_ring.2 s p q p
  obtain ⟨f, hf, hlists⟩ := (hcomputes d e hd he).mul
  have hproduct : Dictionary.mul s.arity d e = .ok [([2, 0], 1), ([0, 2], -1)] := by
    decide +kernel
  cases hf.symm.trans hproduct
  exact ⟨harises, (canonical_ring.1 _).mp harises, hd, he, hproduct, hlists, by decide,
    hlaws.int_one_mul (by decide)⟩

end TapeAir
