import TapeAir.Calculator.Comparison
import TapeAir.Calculator.Outcome
import TapeAir.Proofs.Poly.Expansion
import TapeAir.Proofs.Poly.Mixed
/-! # Polynomials as values of the calculator

Polynomials of one shape combine to a polynomial of that shape, and no error is possible. An integer
takes part as a constant, and its exponents must be listed first.
-/
namespace TapeAir

theorem Shape.toNat_arity {s : Shape} {α : Type} {l : List α} (h : (l.length : ℤ) = s.arity) :
    l.length = s.arity.toNat := by omega

namespace AnyPoly
variable {s : Shape} (p q : s.Poly)

theorem align_mk : align ⟨s, p⟩ ⟨s, q⟩ = .ok q := by simp [align]

theorem add_mk : add ⟨s, p⟩ ⟨s, q⟩ = .ok ⟨s, p + q⟩ := by
  rw [add, align_mk]
  rfl

theorem sub_mk : sub ⟨s, p⟩ ⟨s, q⟩ = .ok ⟨s, p - q⟩ := by
  rw [sub, align_mk]
  rfl

theorem mul_mk : mul ⟨s, p⟩ ⟨s, q⟩ = .ok ⟨s, p * q⟩ := by
  rw [mul, align_mk]
  rfl

theorem align_eq_ok {p q : AnyPoly} {q' : p.shape.Poly} (h : p.align q = .ok q') :
    q = ⟨p.shape, q'⟩ := by
  rw [align] at h
  split at h
  · next hshape =>
    obtain ⟨_, q⟩ := q
    cases hshape
    cases h
    rfl
  · split at h <;> cases h

theorem eval_mk {point : List (Option Element)} {values : List s.level.Carrier}
    (h : (values.length : ℤ) = s.arity)
    (hvalues : point.map (Option.bind · (Element.toLevel? s.level)) = values.map some) :
    eval ⟨s, p⟩ point = .ok (p.eval ⟨values.toArray, Shape.toNat_arity h⟩) := by
  have hlength : (point.length : ℤ) = s.arity := by
    rw [← h, ← List.length_map, hvalues, List.length_map]
  have hat : Poly.AtLevel s.level ⟨point.toArray, Shape.toNat_arity hlength⟩
      ⟨values.toArray, Shape.toNat_arity h⟩ := by
    intro i
    have hi := congrArg (·[i.val]?) hvalues
    have hpoint : i.val < point.length := i.isLt.trans_eq (Shape.toNat_arity hlength).symm
    have hvalue : i.val < values.length := i.isLt.trans_eq (Shape.toNat_arity h).symm
    simpa [Poly.vector_get_eq, hpoint, hvalue] using hi
  rw [eval, dif_pos hlength, Poly.evalMixed?_eq hat]

end AnyPoly

namespace Shape
variable (s : Shape)

def coordinates (point : List s.level.Carrier) : List (Option Element) :=
  point.map fun a => Value.toCoordinate? (.scalar (.ofLevel s.level a))

theorem eval_coordinates {s : Shape} {point : List s.level.Carrier}
    (h : (point.length : ℤ) = s.arity) (p : s.Poly) :
    AnyPoly.eval ⟨s, p⟩ (s.coordinates point) = .ok (p.eval ⟨point.toArray, toNat_arity h⟩) := by
  refine AnyPoly.eval_mk p h ?_
  rw [coordinates, List.map_map]
  refine List.map_congr_left fun a _ => ?_
  exact Element.toLevel?_ofLevel s.level a

end Shape

theorem Comparison.eq_poly_iff {s : Shape} {p q : s.Poly} :
    Comparison.eq.apply (.poly ⟨s, p⟩) (.poly ⟨s, q⟩) = .ok true ↔ p = q := by
  have hdecide : Comparison.eq.apply (.poly ⟨s, p⟩) (.poly ⟨s, q⟩) =
      .ok (decide ((⟨s, p⟩ : AnyPoly) = ⟨s, q⟩)) := rfl
  rw [hdecide, Except.ok.injEq, decide_eq_true_eq, AnyPoly.mk.injEq, heq_eq_eq]
  exact and_iff_right rfl

theorem Value.toLevel_int (l : Level) (c : ℤ) : (Value.int c).toLevel l = .ok (c : l.Carrier) := by
  cases l with
  | base => rfl
  | ext => exact congrArg Except.ok (map_intCast Cubic.liftHom c)

theorem AnyPoly.const_eq {s : Shape} (c : s.level.Carrier) (h : 0 ≤ s.arity) :
    AnyPoly.const s c = s.checkListable.map fun _ => ⟨s, .const c⟩ := by
  rw [AnyPoly.const, if_neg (Int.not_lt.mpr h)]
  cases s.checkListable <;> rfl

theorem Value.toConstant_int {s : Shape} (c : ℤ) (h : 0 ≤ s.arity) :
    (Value.int c).toConstant s =
      (s.checkListable.mapError .poly).map fun _ => ⟨s, .const (c : s.level.Carrier)⟩ := by
  rw [toConstant, toLevel_int]
  change (AnyPoly.const s (c : s.level.Carrier)).mapError Error.poly = _
  rw [AnyPoly.const_eq _ h]
  cases s.checkListable <;> rfl

namespace Outcome
variable {s : Shape}

def ofPoly (p : s.Poly) : Outcome s := .ofValue (.poly ⟨s, p⟩)

def onceListable (x : Outcome s) : Outcome s where
  value := do
    s.checkListable.mapError .poly
    x.value

/-- `P` holds if the exponents of a constant can be listed; if not, the outcome is that error. -/
def OnceListable (x : Outcome s) (P : Outcome s → Prop) : Prop :=
  if Repetition.isWord s.arity then P x else x = ⟨.error (.poly .overflow)⟩

theorem ext {x y : Outcome s} (h : x.value = y.value) : x = y := by
  cases x
  cases y
  exact congrArg _ h

theorem ofPoly_injective : Function.Injective (ofPoly : s.Poly → Outcome s) := by
  intro p q h
  have hvalue := Value.poly.inj (Except.ok.inj (congrArg value h))
  cases hvalue
  rfl

theorem onceListable_of_ok (h : s.checkListable = .ok ()) (x : Outcome s) : onceListable x = x := by
  apply ext
  rw [onceListable, h]
  rfl

theorem onceListable_of_error {e : PolyError} (h : s.checkListable = .error e) (x : Outcome s) :
    onceListable x = ⟨.error (.poly e)⟩ := by
  apply ext
  rw [onceListable, h]
  rfl

theorem onceListable_holds {P : Outcome s → Prop} {x : Outcome s} (h : P x) :
    (onceListable x).OnceListable P := by
  rw [OnceListable]
  split
  · next hword =>
    rw [onceListable_of_ok (if_pos hword)]
    exact h
  · next hword => exact onceListable_of_error (if_neg hword) x

section Constants

theorem zero_eq : (0 : Outcome s) = ofPoly 0 := rfl

variable (h : 0 ≤ s.arity)
include h

theorem ofInt_eq (c : ℤ) :
    (ofInt c : Outcome s) = onceListable (ofPoly (.const (c : s.level.Carrier))) := by
  apply ext
  change ((Value.int c).toConstant s).map Value.poly = _
  rw [Value.toConstant_int c h, onceListable]
  cases s.checkListable <;> rfl

theorem one_eq : (1 : Outcome s) = onceListable (ofPoly 1) := by
  refine (ofInt_eq h 1).trans ?_
  rw [Int.cast_one]
  rfl

theorem natCast_eq (k : ℕ) : (k : Outcome s) = onceListable (ofPoly (k : s.Poly)) := by
  refine (ofInt_eq h k).trans ?_
  rw [Int.cast_natCast]
  rfl

end Constants

instance : Neg (Outcome s) := ⟨fun x => ⟨do Value.negate (← x.value)⟩⟩

variable (p q : s.Poly)

theorem ofPoly_neg : -ofPoly p = ofPoly (-p) := rfl

theorem ofPoly_add : ofPoly p + ofPoly q = ofPoly (p + q) :=
  ext (congrArg (fun r => (Except.mapError Error.poly r).map Value.poly) (AnyPoly.add_mk p q))

theorem ofPoly_sub : ofPoly p - ofPoly q = ofPoly (p - q) :=
  ext (congrArg (fun r => (Except.mapError Error.poly r).map Value.poly) (AnyPoly.sub_mk p q))

theorem ofPoly_mul : ofPoly p * ofPoly q = ofPoly (p * q) :=
  ext (congrArg (fun r => (Except.mapError Error.poly r).map Value.poly) (AnyPoly.mul_mk p q))

section Integers
variable (op : Operator) (hop : op ≠ .div) (c : ℤ) (h : 0 ≤ s.arity)
include hop h

theorem combine_int_right :
    combine op (ofPoly p) (ofValue (.int c)) =
      onceListable (combine op (ofPoly p) (ofPoly (.const (c : s.level.Carrier)))) := by
  apply ext
  change (do
    if op = .div then throw .operands
    op.ofPolys ⟨s, p⟩ (← (Value.int c).toConstant s) : Except Error Value) = _
  rw [if_neg hop, Value.toConstant_int c h, onceListable]
  cases s.checkListable <;> rfl

theorem combine_int_left :
    combine op (ofValue (.int c)) (ofPoly p) =
      onceListable (combine op (ofPoly (.const (c : s.level.Carrier))) (ofPoly p)) := by
  apply ext
  change (do
    if op = .div ∨ !Operator.entersFromLeft (Value.int c) then throw .operands
    op.ofPolys (← (Value.int c).toConstant s) ⟨s, p⟩ : Except Error Value) = _
  rw [if_neg (not_or.mpr ⟨hop, nofun⟩), Value.toConstant_int c h, onceListable]
  cases s.checkListable <;> rfl

end Integers

end Outcome

end TapeAir
