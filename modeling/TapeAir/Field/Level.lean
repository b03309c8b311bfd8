import TapeAir.Field.Cubic
/-! # Elements whose field is known only as data

A level names one of the two fields, and its carrier is that field. A scalar is an element of either
field or a plain integer that has not chosen one; it enters a level if it can be read there.
-/
namespace TapeAir

inductive Level where
  | base
  | ext
deriving DecidableEq, Repr

namespace Level

def name : Level → String
  | .base => "BField"
  | .ext => "XField"

abbrev Carrier : Level → Type
  | .base => Goldilocks
  | .ext => Cubic

variable (l : Level)

instance : DecidableEq l.Carrier := match l with
  | .base => inferInstanceAs (DecidableEq Goldilocks)
  | .ext => inferInstanceAs (DecidableEq Cubic)

instance : Zero l.Carrier := match l with
  | .base => inferInstanceAs (Zero Goldilocks)
  | .ext => inferInstanceAs (Zero Cubic)

instance : One l.Carrier := match l with
  | .base => inferInstanceAs (One Goldilocks)
  | .ext => inferInstanceAs (One Cubic)

instance : NatCast l.Carrier := match l with
  | .base => inferInstanceAs (NatCast Goldilocks)
  | .ext => inferInstanceAs (NatCast Cubic)

instance : Add l.Carrier := match l with
  | .base => inferInstanceAs (Add Goldilocks)
  | .ext => inferInstanceAs (Add Cubic)

instance : Neg l.Carrier := match l with
  | .base => inferInstanceAs (Neg Goldilocks)
  | .ext => inferInstanceAs (Neg Cubic)

instance : Mul l.Carrier := match l with
  | .base => inferInstanceAs (Mul Goldilocks)
  | .ext => inferInstanceAs (Mul Cubic)

def ofBase (a : Goldilocks) : (l : Level) → l.Carrier
  | .base => a
  | .ext => Cubic.lift a

def text : (l : Level) → l.Carrier → String
  | .base => Goldilocks.text
  | .ext => Cubic.text

end Level

inductive Scalar where
  | int (z : Int)
  | base (a : Goldilocks)
  | ext (x : Cubic)
deriving DecidableEq

namespace Scalar

def ofLevel : (l : Level) → l.Carrier → Scalar
  | .base => .base
  | .ext => .ext

/-- The element of a level that a scalar stands for: integers are reduced and base elements lifted,
but no extension element is read at the base level. -/
def toLevel? : (l : Level) → Scalar → Option l.Carrier
  | .base, .int z => some (Goldilocks.ofInt z)
  | .base, .base a => some a
  | .base, .ext _ => none
  | .ext, .int z => some (Cubic.lift (.ofInt z))
  | .ext, .base a => some (Cubic.lift a)
  | .ext, .ext x => some x

def typeName : Scalar → String
  | .int _ => "int"
  | .base _ => Level.base.name
  | .ext _ => Level.ext.name

end Scalar

inductive Element where
  | base (a : Goldilocks)
  | ext (x : Cubic)
deriving DecidableEq

namespace Element

def ofScalar : Scalar → Element
  | .int z => .base (.ofInt z)
  | .base a => .base a
  | .ext x => .ext x

end Element

/-- An element of a level times a power of an element of either field, if both can be multiplied. A
base element scales an extension element, but takes in none. -/
def Level.timesPower? : (l : Level) → l.Carrier → Element → Nat → Option l.Carrier
  | .base, (c : Goldilocks), .base a, e => some (c * a ^ e)
  | .base, _, .ext _, _ => none
  | .ext, (c : Cubic), .base a, e => some (c.scale (a ^ e))
  | .ext, (c : Cubic), .ext x, e => some (c * x ^ e)

end TapeAir
