import TapeAir.Calculator.Value
/-! # Comparison of values

Elements of the fields compare only with elements of their own field, and base elements with
integers as well. A polynomial may be compared with anything but an element on its left, and equals
nothing but an equal polynomial. The other values equal nothing of another type, and only values of
one type are ordered.
-/
namespace TapeAir

inductive Comparison where
  | eq
  | ne
  | lt
  | le
  | gt
  | ge
deriving DecidableEq, Repr

namespace Comparison

def ofOrdering (o : Ordering) : Comparison → Bool
  | .eq => o.isEq
  | .ne => o.isNe
  | .lt => o.isLT
  | .le => o.isLE
  | .gt => o.isGT
  | .ge => o.isGE

def ofInts (a b : Int) (op : Comparison) : Bool := op.ofOrdering (compareOfLessAndEq a b)

def ofTexts (s t : String) (op : Comparison) : Bool := op.ofOrdering (compareOfLessAndEq s t)

def ofEqual (equal : Bool) : Comparison → Except Error Bool
  | .eq => .ok equal
  | .ne => .ok !equal
  | _ => .error .operands

/-- A base element compares by its representative, also with an integer that is not reduced.
Extension elements compare only with each other and only for equality. -/
def ofScalars (op : Comparison) : Scalar → Scalar → Except Error Bool
  | .int y, .int z => .ok (op.ofInts y z)
  | .base a, .base b => .ok (op.ofInts a.val b.val)
  | .base a, .int z => .ok (op.ofInts a.val z)
  | .int z, .base b => .ok (op.ofInts z b.val)
  | .ext x, .ext y => op.ofEqual (x = y)
  | _, _ => .error .operands

def isElement : Value → Bool
  | .scalar (.base _) => true
  | .scalar (.ext _) => true
  | _ => false

def ofSingle (op : Comparison) : Value → Value → Except Error Bool
  | .scalar s, .scalar t => op.ofScalars s t
  | .poly p, .poly q => op.ofEqual (p = q)
  | .text s, .text t => .ok (op.ofTexts s t)
  | .poly _, _ => op.ofEqual false
  | u, .poly _ => if isElement u then .error .operands else op.ofEqual false
  | u, v => if isElement u || isElement v then .error .operands else op.ofEqual false

mutual

/-- Compares two values. Lists of unlike length are unequal whatever they hold. -/
def apply (op : Comparison) : Value → Value → Except Error Bool
  | .list us, .list vs =>
    if us.length ≠ vs.length ∧ (op = .eq ∨ op = .ne) then .ok (op = .ne)
    else applyAll op us vs
  | u, v => op.ofSingle u.counted v.counted

/-- The first members that are not equal decide how two lists compare, and without such members
their lengths do. -/
def applyAll (op : Comparison) : List Value → List Value → Except Error Bool
  | u :: us, v :: vs => do
    if ← apply .eq u v then applyAll op us vs
    else if op = .eq then return false
    else if op = .ne then return true
    else apply op u v
  | us, vs => .ok (op.ofInts us.length vs.length)

end

end Comparison

end TapeAir
