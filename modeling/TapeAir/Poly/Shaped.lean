import TapeAir.Field.Level
import TapeAir.Poly.Mixed
import TapeAir.Poly.Text
import TapeAir.Repetition
/-! # Polynomials whose field and arity are known only as data

Two such polynomials combine when their shapes agree, and the error says which part of the shapes
differs. An arity is kept as it is given, also where it is negative or very large: no list of
exponents has a negative length, and those of a constant, a zero for each variable, can be too many
to list. What needs no such list still works there.
-/
namespace TapeAir

structure Shape where
  level : Level
  arity : Int
deriving DecidableEq, Repr

inductive PolyError where
  | exponentCount (found : Nat) (arity : Int)
  /-- The exponents of a constant, a zero for each variable, are too many to list. -/
  | overflow
  | pointLength (found : Nat) (arity : Int)
  | arityMismatch (left right : Int)
  | levelMismatch (left right : Level)
  /-- A coordinate occurs that cannot be multiplied in. -/
  | coordinate
deriving DecidableEq, Repr

def PolyError.message : PolyError → Option String
  | .exponentCount found arity => some s!"지수 튜플 길이 {found} != 변수 개수 {arity}"
  | .overflow => none
  | .pointLength found arity => some s!"평가 점의 길이 {found} != 변수 개수 {arity}"
  | .arityMismatch left right => some s!"변수 개수가 다릅니다: {left} != {right}"
  | .levelMismatch left right => some s!"계수 체가 다릅니다: {left.name} != {right.name}"
  | .coordinate => none

namespace Shape

abbrev Poly (s : Shape) := TapeAir.Poly s.level.Carrier s.arity.toNat

def monomial (s : Shape) (exponents : List Nat) : Except PolyError (Monomial s.arity.toNat) :=
  if h : (exponents.length : Int) = s.arity then .ok ⟨exponents.toArray, by simp [← h]⟩
  else .error (.exponentCount exponents.length s.arity)

/-- Checks that a zero for each variable can be listed, which is a repetition. -/
def checkListable (s : Shape) : Except PolyError Unit :=
  if Repetition.isWord s.arity then .ok () else .error .overflow

end Shape

structure AnyPoly where
  shape : Shape
  poly : shape.Poly
deriving DecidableEq

namespace AnyPoly

def zero (s : Shape) : AnyPoly := ⟨s, 0⟩

/-- A constant: its exponents are listed first, and then counted. -/
def const (s : Shape) (c : s.level.Carrier) : Except PolyError AnyPoly := do
  s.checkListable
  if s.arity < 0 then throw (.exponentCount 0 s.arity)
  return ⟨s, .const c⟩

/-- All variables. Where there is none, no exponents are listed. -/
def indeterminates (s : Shape) : Except PolyError (List AnyPoly) := do
  if 0 < s.arity then s.checkListable
  return (Poly.indeterminates : List s.Poly).map fun p => ⟨s, p⟩

/-- Enters a coefficient under its exponents. A later entry replaces an earlier one in its place. -/
def enterTerm {α : Type} (entries : List (List Nat × α)) (exponents : List Nat) (c : α) :
    List (List Nat × α) :=
  if entries.any (·.1 == exponents) then
    entries.map fun e => if e.1 == exponents then (exponents, c) else e
  else entries ++ [(exponents, c)]

def entries {α : Type} (terms : List (List Nat × α)) : List (List Nat × α) :=
  terms.foldl (fun es t => enterTerm es t.1 t.2) []

def align (p q : AnyPoly) : Except PolyError p.shape.Poly :=
  if h : q.shape = p.shape then .ok (h ▸ q.poly)
  else if p.shape.arity = q.shape.arity then
    .error (.levelMismatch p.shape.level q.shape.level)
  else .error (.arityMismatch p.shape.arity q.shape.arity)

def add (p q : AnyPoly) : Except PolyError AnyPoly :=
  (p.align q).map fun q => ⟨p.shape, p.poly + q⟩

def sub (p q : AnyPoly) : Except PolyError AnyPoly :=
  (p.align q).map fun q => ⟨p.shape, p.poly - q⟩

def mul (p q : AnyPoly) : Except PolyError AnyPoly :=
  (p.align q).map fun q => ⟨p.shape, p.poly * q⟩

def neg (p : AnyPoly) : AnyPoly := ⟨p.shape, -p.poly⟩

def degree (p : AnyPoly) : Int := p.poly.degree

def text (p : AnyPoly) : String := p.poly.text (Level.text _)

def lift : AnyPoly → AnyPoly
  | ⟨⟨.base, n⟩, p⟩ => ⟨⟨.ext, n⟩, Poly.map Cubic.lift (F := Goldilocks) p⟩
  | p => p

/-- The value at a point with one coordinate for each variable, some of which may be missing. -/
def eval (p : AnyPoly) (point : List (Option Element)) :
    Except PolyError p.shape.level.Carrier :=
  if h : (point.length : Int) = p.shape.arity then
    match p.poly.evalMixed? _ ⟨point.toArray, by simp [← h]⟩ with
    | some a => .ok a
    | none => .error .coordinate
  else .error (.pointLength point.length p.shape.arity)

end AnyPoly

end TapeAir
