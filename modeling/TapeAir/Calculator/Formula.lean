import TapeAir.Calculator.Outcome
import TapeAir.Constraint.Family
/-! # Constraint formulas at given values

The formulas between two rows, evaluated at any values in place of the columns. The first column is
a polynomial and gives the shape of the constants; the values may differ in type and shape, and then
the answer is the first mismatch.
-/
namespace TapeAir.Formula

def columns (s : Shape) (row : List Value) (i : Nat) : Outcome s :=
  .ofValue (row[i]?.getD (.poly (.zero s)))

def constantShape (row : List Value) : Except Error Shape := do
  let p ← (row.head?.getD (.list [])).toPoly
  let _ ← (1 : Outcome p.shape).value
  return p.shape

/-- The effect of an instruction, switched by the current instruction: three values. The test for a
zero value comes first, whether the instruction needs it or not, and all three effects come before
they are switched. -/
def switchedEffect (symbol : String) (r s : List Value) : Except Error (List Value) := do
  let shape ← constantShape r
  let row := Register.ofColumns (columns shape r)
  let _ ← row.valueIsZero.value
  match Instruction.ofText? symbol with
  | none => throw (.unknownInstruction symbol)
  | some i =>
    let effect := row.effect i (.ofColumns (columns shape s))
    let parts ← Outcome.values effect.toList
    Outcome.values (parts.map fun v => .ofValue v * row.currentInstruction)

def inOrder (k : Kind) (r s : List Value) : Except Error (List Value) := do
  let shape ← constantShape r
  Outcome.values (k.transitionFormulas (columns shape r) (columns shape s))

/-- The transition formulas of a kind of table. Those of the processor start with the effect of the
instruction that opens a loop, which uses every column that the others use, the cycle apart. -/
def transition (k : Kind) (r s : List Value) : Except Error (List Value) := do
  if k = .processor then
    let _ ← switchedEffect "[" r s
  inOrder k r s

/-- The columns of two rows of a kind of table, one after the other. Only the processor table says
how many are missing or left over. -/
def twoRows (k : Kind) (values : List Value) : Except Error (List Value × List Value) :=
  let expected := 2 * k.baseWidth
  if values.length = expected then .ok (values.splitAt k.baseWidth)
  else if k = .processor then .error (.columnCount expected values.length)
  else .error .operands

def atPoly (p : AnyPoly) (f : Outcome p.shape → Outcome p.shape) : Except Error Value :=
  (f (.ofValue (.poly p))).value

end TapeAir.Formula
