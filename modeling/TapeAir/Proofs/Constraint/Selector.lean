import TapeAir.Proofs.Constraint.Interpretation
import TapeAir.Proofs.Constraint.Step
import TapeAir.Proofs.Except
import TapeAir.Proofs.Poly.Homomorphism
/-! # Where selectors vanish

A product of differences to codes can be made from any polynomial, over either field and in any
number of variables. The calculator makes it, and so do the dictionaries, which merge and trim after
every factor. What results has at a point the product of the differences to the value that the
polynomial has there. A field has no divisors of zero, so the product vanishes where that value is
the code of one of its instructions, and nowhere else.
-/
namespace TapeAir

theorem Level.code_injective (l : Level) {i j : Instruction}
    (h : (i.code : l.Carrier) = (j.code : l.Carrier)) : i = j :=
  Instruction.code_cast_injective (l.natCast_inj.mp h)

theorem Level.code_ne_zero (l : Level) (i : Instruction) : (i.code : l.Carrier) ≠ 0 := by
  rw [← Nat.cast_zero, ne_eq, natCast_inj, Nat.cast_zero]
  exact i.code_cast_ne_zero

/-! ## Products made by the calculator -/

namespace Outcome
variable {s : Shape}

/-- Where constants can be listed, every formula over polynomials of one shape is that of the
polynomials. -/
theorem interprets_ofPoly (harity : 0 ≤ s.arity) (h : s.checkListable = .ok ()) :
    Interprets (ofPoly : s.Poly → Outcome s) where
  zero := zero_eq.symm
  one := by rw [one_eq harity, onceListable_of_ok h]
  add p q := (ofPoly_add p q).symm
  sub p q := (ofPoly_sub p q).symm
  mul p q := (ofPoly_mul p q).symm
  natCast k := by rw [natCast_eq harity, onceListable_of_ok h]

/-- The product starts with the constant one. Where that is refused, so is the product. -/
theorem vanishing_ofPoly (h : 0 ≤ s.arity) (is : List Instruction) (q : s.Poly) :
    Instruction.vanishing is (ofPoly q) = onceListable (ofPoly (Instruction.vanishing is q)) := by
  cases hlist : s.checkListable with
  | ok =>
    rw [onceListable_of_ok hlist, Instruction.map_vanishing (interprets_ofPoly h hlist)]
  | error e =>
    rw [onceListable_of_error hlist, Instruction.vanishing, one_eq h, onceListable_of_error hlist]
    exact List.foldl_fixed' (fun _ => rfl) is

end Outcome

/-! ## Products made in dictionaries -/

namespace Dictionary
variable {F : Type} [CommRing F] [DecidableEq F]

def takeIn (arity : ℤ) (d acc : Dictionary F) (i : Instruction) :
    Except PolyError (Dictionary F) := do
  mul arity acc (← sub arity d (← const arity (i.code : F)))

def vanishing (arity : ℤ) (is : List Instruction) (d : Dictionary F) :
    Except PolyError (Dictionary F) := do
  is.foldlM (takeIn arity d) (← const arity 1)

def selector (arity : ℤ) (i : Instruction) (d : Dictionary F) : Except PolyError (Dictionary F) :=
  vanishing arity (Instruction.all.filter (· ≠ i)) d

def zerofier (arity : ℤ) (d : Dictionary F) : Except PolyError (Dictionary F) :=
  vanishing arity Instruction.all d

end Dictionary

namespace Poly
variable {F : Type} [CommRing F] [DecidableEq F] {n : ℕ} {arity : ℤ} {p r : Poly F n}
variable {d acc : Dictionary F} (h : (n : ℤ) = arity)
include h

theorem Lists.takeIn (hd : Lists arity d p) (hacc : Lists arity acc r) (i : Instruction) :
    ∃ f, Dictionary.takeIn arity d acc i = .ok f ∧
      Lists arity f (r * (p - (i.code : Poly F n))) := by
  obtain ⟨c, hc, hcode⟩ := exists_const h (i.code : F)
  obtain ⟨e, he, hdifference⟩ := hd.sub hcode
  obtain ⟨f, hf, hproduct⟩ := hacc.mul hdifference
  exact ⟨f, Except.bind_eq_ok.mpr ⟨c, hc, Except.bind_eq_ok.mpr ⟨e, he, hf⟩⟩, hproduct⟩

theorem Lists.vanishing (hd : Lists arity d p) (is : List Instruction) :
    ∃ f, Dictionary.vanishing arity is d = .ok f ∧
      Lists arity f (Instruction.vanishing is p) := by
  -- The factors before may have made any product, as long as it is listed.
  have hfactors (acc : Dictionary F) (r : Poly F n) (hacc : Lists arity acc r) :
      ∃ f, is.foldlM (Dictionary.takeIn arity d) acc = .ok f ∧
        Lists arity f (is.foldl (fun r i => r * (p - (i.code : Poly F n))) r) := by
    induction is generalizing acc r with
    | nil => exact ⟨acc, rfl, hacc⟩
    | cons i is ih =>
      obtain ⟨e, he, hproduct⟩ := hd.takeIn h hacc i
      obtain ⟨f, hf, hresult⟩ := ih e _ hproduct
      rw [List.foldlM_cons]
      exact ⟨f, Except.bind_eq_ok.mpr ⟨e, he, hf⟩, hresult⟩
  obtain ⟨one, hone, hstart⟩ := exists_const h (1 : F)
  obtain ⟨f, hf, hresult⟩ := hfactors one 1 hstart
  exact ⟨f, Except.bind_eq_ok.mpr ⟨one, hone, hf⟩, hresult⟩

end Poly

/-! ## Values -/

namespace Instruction

theorem selector_code_ne_zero (l : Level) (i : Instruction) :
    i.selector (i.code : l.Carrier) ≠ 0 := by
  intro hzero
  obtain ⟨j, hj, hcode⟩ := (selector_eq_zero_iff i _).mp hzero
  exact hj (l.code_injective hcode.symm)

theorem vanishing_zero_ne_zero (l : Level) (is : List Instruction) :
    vanishing is (0 : l.Carrier) ≠ 0 := by
  intro hzero
  obtain ⟨i, -, hcode⟩ := (vanishing_eq_zero_iff is _).mp hzero
  exact l.code_ne_zero i hcode.symm

variable {s : Shape} {point : List s.level.Carrier}

theorem takesAsMade_vanishing (h : (point.length : ℤ) = s.arity) (q : s.Poly)
    (is : List Instruction) :
    TakesAsMade q (vanishing is q) (vanishing is (.ofPoly q)) (Dictionary.vanishing s.arity is)
      point (vanishing is (q.eval ⟨point.toArray, Shape.toNat_arity h⟩)) := by
  have harity : 0 ≤ s.arity := h ▸ Int.natCast_nonneg _
  refine .ofEval h ?_ (Outcome.vanishing_ofPoly harity is q) fun d hd => ?_
  · exact map_vanishing (Poly.eval_interprets ⟨point.toArray, Shape.toNat_arity h⟩) is q
  · exact Poly.Lists.vanishing (Int.toNat_of_nonneg harity) hd is

/-- The zerofier of a polynomial vanishes exactly where the polynomial takes a code, and a selector
exactly where it takes another code than that of its own instruction. Neither vanishes where the
polynomial does. -/
theorem selectors_vanish_at_codes (h : (point.length : ℤ) = s.arity) (q : s.Poly)
    (i : Instruction) :
    ∃ v z w : s.level.Carrier,
      (Outcome.ofPoly q).Takes point v ∧ (∀ d, q.Lists s.arity d → d.evaluate point = v) ∧
      TakesAsMade q (zerofier q) (zerofier (.ofPoly q)) (Dictionary.zerofier s.arity) point z ∧
      TakesAsMade q (i.selector q) (i.selector (.ofPoly q)) (Dictionary.selector s.arity i)
        point w ∧
      (z = 0 ↔ ∃ j : Instruction, v = j.code) ∧
      (w = 0 ↔ ∃ j : Instruction, j ≠ i ∧ v = j.code) ∧
      (v = i.code → w ≠ 0) ∧ (v = 0 → z ≠ 0 ∧ w ≠ 0) := by
  let v := q.eval ⟨point.toArray, Shape.toNat_arity h⟩
  refine ⟨v, zerofier v, i.selector v, Outcome.takes_of_eval h rfl rfl,
    fun d hd => hd.evaluate_self _, takesAsMade_vanishing h q _, takesAsMade_vanishing h q _,
    zerofier_eq_zero_iff v, selector_eq_zero_iff i v, ?_, ?_⟩
  · intro hv
    rw [hv]
    exact selector_code_ne_zero s.level i
  · intro hv
    rw [hv]
    exact ⟨vanishing_zero_ne_zero s.level _, vanishing_zero_ne_zero s.level _⟩

theorem cubic_selectors :
    let s : Shape := ⟨.ext, 2⟩
    let x : Cubic := ⟨0, 1, 0⟩
    let q : s.Poly := .X 0 * .X 0 * .X 0 - .X 0 + .X 1
    let coded : List s.level.Carrier := [x, (44 : ℕ)]
    let idle : List s.level.Carrier := [x, 1]
    ((coded.length : ℤ) = s.arity ∧ (idle.length : ℤ) = s.arity) ∧
      ((Outcome.ofPoly q).Takes coded increment.code ∧ (Outcome.ofPoly q).Takes idle 0) ∧
      (zerofier (Outcome.ofPoly q)).TakesOnceListable coded 0 ∧
      (decrement.selector (Outcome.ofPoly q)).TakesOnceListable coded 0 ∧
      (∃ z ≠ 0, (zerofier (Outcome.ofPoly q)).TakesOnceListable idle z) ∧
      ∃ w ≠ 0, (decrement.selector (Outcome.ofPoly q)).TakesOnceListable idle w := by
  intro s x q coded idle
  have hcoded : (coded.length : ℤ) = s.arity := rfl
  have hidle : (idle.length : ℤ) = s.arity := rfl
  have hcode : (Outcome.ofPoly q).Takes coded increment.code := ⟨q, rfl, by decide +kernel⟩
  have hzero : (Outcome.ofPoly q).Takes idle 0 := ⟨q, rfl, by decide +kernel⟩
  obtain ⟨v, z, w, hv, -, hzerofier, hselector, hz, hw, -, -⟩ :=
    selectors_vanish_at_codes hcoded q .decrement
  obtain rfl := hv.unique hcode
  obtain rfl := hz.mpr ⟨.increment, rfl⟩
  obtain rfl := hw.mpr ⟨.increment, by decide, rfl⟩
  obtain ⟨v, z, w, hv, -, hzerofier', hselector', -, -, -, hnonzero⟩ :=
    selectors_vanish_at_codes hidle q .decrement
  obtain rfl := hv.unique hzero
  obtain ⟨hz, hw⟩ := hnonzero rfl
  exact ⟨⟨hcoded, hidle⟩, ⟨hcode, hzero⟩, hzerofier.outcome, hselector.outcome,
    ⟨z, hz, hzerofier'.outcome⟩, w, hw, hselector'.outcome⟩

end Instruction

end TapeAir
