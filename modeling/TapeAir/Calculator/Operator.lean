import TapeAir.Calculator.Value
/-! # Arithmetic on values

Not every operator takes every pair of operands: an element of one field never meets one of the
other by itself, except that an extension element may be multiplied or divided by a base one on its
right. Texts and lists can be joined to their like and repeated.
-/
namespace TapeAir

inductive Operator where
  | add
  | sub
  | mul
  | div
deriving DecidableEq, Repr

namespace Operator

/-- Integers have no quotient among the values. -/
def ofInts (a b : Int) : Operator → Except Error Value
  | .add => .ok (.int (a + b))
  | .sub => .ok (.int (a - b))
  | .mul => .ok (.int (a * b))
  | .div => .error .operands

def ofBase : Operator → Goldilocks → Goldilocks → Goldilocks
  | .add => (· + ·)
  | .sub => (· - ·)
  | .mul => (· * ·)
  | .div => (· / ·)

def ofCubic : Operator → Cubic → Cubic → Cubic
  | .add => (· + ·)
  | .sub => (· - ·)
  | .mul => (· * ·)
  | .div => (· / ·)

def scaleCubic (x : Cubic) (a : Goldilocks) : Operator → Except Error Value
  | .mul => .ok (.ext (x.scale a))
  | .div => .ok (.ext (x.scale a⁻¹))
  | _ => .error .operands

/-- Two scalars. An integer takes the field of the other scalar. -/
def ofScalars (op : Operator) : Scalar → Scalar → Except Error Value
  | .int y, .int z => op.ofInts y z
  | .base a, .base b => .ok (.base (op.ofBase a b))
  | .base a, .int z => .ok (.base (op.ofBase a (.ofInt z)))
  | .int z, .base b => .ok (.base (op.ofBase (.ofInt z) b))
  | .ext x, .ext y => .ok (.ext (op.ofCubic x y))
  | .ext x, .base a => op.scaleCubic x a
  | .ext x, .int z => op.scaleCubic x (.ofInt z)
  | .int z, .ext x => if op = .mul then .ok (.ext (x.scale (.ofInt z))) else .error .operands
  | .base _, .ext _ => .error .operands

def ofPolys (p q : AnyPoly) : Operator → Except Error Value
  | .add => (p.add q).mapError .poly |>.map .poly
  | .sub => (p.sub q).mapError .poly |>.map .poly
  | .mul => (p.mul q).mapError .poly |>.map .poly
  | .div => .error .operands

def repeatText (s : String) (z : Int) : Except Error Value :=
  match Repetition.textTimes? s.length z with
  | some n => .ok (.text (String.join (List.replicate n s)))
  | none => .error .overflow

def repeatList (vs : List Value) (z : Int) : Except Error Value :=
  match Repetition.times? vs.length z with
  | some n => .ok (.list (List.replicate n vs).flatten)
  | none => .error .overflow

def ofSequences : Operator → Value → Value → Except Error Value
  | .add, .text s, .text t => .ok (.text (s ++ t))
  | .add, .list us, .list vs => .ok (.list (us ++ vs))
  | .mul, .text s, .scalar (.int z) => repeatText s z
  | .mul, .scalar (.int z), .text s => repeatText s z
  | .mul, .list vs, .scalar (.int z) => repeatList vs z
  | .mul, .scalar (.int z), .list vs => repeatList vs z
  | _, _, _ => .error .operands

/-- Whether a value on the left of a polynomial becomes a constant. Elements do not. -/
def entersFromLeft : Value → Bool
  | .scalar (.int _) => true
  | .text _ => true
  | _ => false

/-- A polynomial accepts any scalar on its right, and an integer on its left. -/
def apply (op : Operator) (a b : Value) : Except Error Value :=
  match a.counted, b.counted with
  | .scalar s, .scalar t => op.ofScalars s t
  | .poly p, .poly q => op.ofPolys p q
  | .poly p, v => do
    if op = .div then throw .operands
    op.ofPolys p (← v.toConstant p.shape)
  | v, .poly q => do
    if op = .div ∨ !entersFromLeft v then throw .operands
    op.ofPolys (← v.toConstant q.shape) q
  | u, v => op.ofSequences u v

end Operator

end TapeAir
