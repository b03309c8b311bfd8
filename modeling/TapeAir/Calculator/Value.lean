import TapeAir.Error
import TapeAir.Text.Label
/-! # Values of the calculator

The calculator works on scalars and polynomials side by side, and its answers may also be truth
values, texts and lists. Every answer can be an operand again, so each use of a value is a reading
of it that may fail. A truth value is read as the integer one or zero, and a text as the integer
that it writes where an integer is asked for.
-/
namespace TapeAir

inductive Value where
  | scalar (s : Scalar)
  | poly (p : AnyPoly)
  | truth (b : Bool)
  | text (s : String)
  | list (vs : List Value)

namespace Value

def int (z : Int) : Value := .scalar (.int z)

def base (a : Goldilocks) : Value := .scalar (.base a)

def ext (x : Cubic) : Value := .scalar (.ext x)

def ofArguments (family : ArgumentFamily) (values : List Cubic) : Value :=
  .list ((family.members.zip values).map fun m => .list [.text m.1, .ext m.2])

mutual

def shown : Value → String
  | .scalar (.int z) => toString z
  | .scalar (.base a) => a.text
  | .scalar (.ext x) => x.text
  | .poly p => p.text
  | .truth b => (Label.truth b).shown
  | .text s => Text.quoted s
  | .list vs => "[" ++ ", ".intercalate (shownAll vs) ++ "]"

def shownAll : List Value → List String
  | [] => []
  | v :: vs => shown v :: shownAll vs

end

mutual

def isWritable : Value → Bool
  | .scalar (.int z) => Numeral.isWritable z
  | .list vs => allWritable vs
  | _ => true

def allWritable : List Value → Bool
  | [] => true
  | v :: vs => isWritable v && allWritable vs

end

def typeName : Value → String
  | .scalar s => s.typeName
  | .poly _ => "MPolynomial"
  | .truth _ => "bool"
  | .text _ => "str"
  | .list _ => "list"

def counted : Value → Value
  | .truth true => .int 1
  | .truth false => .int 0
  | v => v

/-! ## Readings -/

def toScalar? (v : Value) : Option Scalar :=
  match v.counted with
  | .scalar s => some s
  | _ => none

def toPoly : Value → Except Error AnyPoly
  | .poly p => .ok p
  | _ => .error .operands

/-- The integer that a value stands for: a base element stands for its representative. -/
def toInt (v : Value) : Except Error Int :=
  match v.counted with
  | .scalar (.int z) => .ok z
  | .scalar (.base a) => .ok a.val
  | .text s => (Numeral.read s).mapError .numeral
  | _ => .error .operands

def toGoldilocks (v : Value) : Except Error Goldilocks :=
  match v.toScalar?.bind (Scalar.toLevel? .base) with
  | some a => .ok a
  | none => .error .operands

def toCubic : Value → Except Error Cubic
  | .scalar (.ext x) => .ok x
  | v => v.toInt.map fun z => Cubic.lift (.ofInt z)

def toLevel : (l : Level) → Value → Except Error l.Carrier
  | .base, v => v.toGoldilocks
  | .ext, v => v.toCubic

def toConstant (s : Shape) (v : Value) : Except Error AnyPoly := do
  (AnyPoly.const s (← v.toLevel s.level)).mapError .poly

def toFactor (v : Value) : Except Error Cubic :=
  match v.toScalar?.bind (Scalar.toLevel? .ext) with
  | some x => .ok x
  | none => .error .operands

def toCoordinate? (v : Value) : Option Element := v.toScalar?.map .ofScalar

def toOffer : Value → Offer
  | .scalar (.ext x) => .element x
  | v => .other v.typeName

/-! ## Operations on one value -/

def negate (v : Value) : Except Error Value :=
  match v.counted with
  | .scalar (.int z) => .ok (int (-z))
  | .scalar (.base a) => .ok (base (-a))
  | .scalar (.ext x) => .ok (ext (-x))
  | .poly p => .ok (.poly p.neg)
  | _ => .error .operands

def isZero : Value → Except Error Bool
  | .scalar (.int z) => .ok (z == 0)
  | .scalar (.base a) => .ok (a = 0)
  | .scalar (.ext x) => .ok (x = 0)
  | .poly p => .ok (p.poly = 0)
  | _ => .error .operands

/-- The inverse of an element, which is zero for zero. -/
def invert : Value → Except Error Value
  | .scalar (.base a) => .ok (base a⁻¹)
  | .scalar (.ext x) => .ok (ext x⁻¹)
  | _ => .error .operands

/-- The degree of a polynomial, or of the extension to which an element belongs. -/
def degree : Value → Except Error Int
  | .poly p => .ok p.degree
  | .scalar (.ext x) => .ok x.toList.length
  | _ => .error .operands

/-- The least exponent of the same power, for an integer whose powers are zero, one or minus one:
they depend only on whether the exponent is zero, odd or even. -/
def leastExponent (e : Nat) : Nat := min e (2 - e % 2)

/-- A power of an integer. It is at least two to the power `e * log2 |z|`, and sixteen exceeds ten,
so where that product is above four times the limit of a numeral, it is refused at once. -/
def powerOfInt (e : Nat) (z : Int) : Except Error Value :=
  if 4 * Numeral.limit < e * z.natAbs.log2 then .error (.numeral .tooLarge)
  else .ok (int (Int.pow z (if z.natAbs ≤ 1 then leastExponent e else e)))

def power (e : Nat) (v : Value) : Except Error Value :=
  match v.counted with
  | .scalar (.int z) => powerOfInt e z
  | .scalar (.base a) => .ok (base (a ^ e))
  | .scalar (.ext x) => .ok (ext (x ^ e))
  | _ => .error .operands

/-! ## Values made of several -/

/-- Three coefficients make an extension element; their number is checked before their types. -/
def toExtension (coefficients : List Value) : Except Error Cubic := do
  if coefficients.length ≠ 3 then throw .coefficientCount
  Cubic.ofList (← coefficients.mapM toGoldilocks)

/-- An element as a constant polynomial over its own field; an integer has no field. Its exponents
are listed before its type is looked at. -/
def toOwnConstant (arity : Int) : Value → Except Error AnyPoly
  | .scalar (.base a) => (AnyPoly.const ⟨.base, arity⟩ a).mapError .poly
  | .scalar (.ext x) => (AnyPoly.const ⟨.ext, arity⟩ x).mapError .poly
  | _ => do
    (Shape.checkListable ⟨.base, arity⟩).mapError .poly
    throw .operands

/-- One term of a polynomial. Its exponents are checked before its coefficient. -/
def toTerm (s : Shape) (exponents : List Nat) (coefficient : Value) :
    Except Error (Term s.level.Carrier s.arity.toNat) := do
  return (← (s.monomial exponents).mapError .poly, ← coefficient.toLevel s.level)

/-- The polynomial with the given terms, of which the last with the same exponents counts. -/
def polynomial (s : Shape) (terms : List (List Nat × Value)) : Except Error AnyPoly := do
  let checked ← (AnyPoly.entries terms).mapM fun e => toTerm s e.1 e.2
  return ⟨s, .ofTerms checked⟩

end Value

end TapeAir
