import TapeAir.Constraint.Compression
import TapeAir.Table.Kind
import TapeAir.Table.Row
/-! # Extension

Every table lifts its rows and appends its argument columns, carrying a state from row to row: the
running products of the permutation arguments, or the evaluation of the symbols so far.
-/
namespace TapeAir

/-- Extends every row in order. The rule gets the state before a row and gives the extended row and
the state after it. -/
def Row.carry? {σ : Type} (rule : σ → Row → Option (ExtendedRow × σ)) :
    σ → List Row → Option (List ExtendedRow × σ)
  | s, [] => some ([], s)
  | s, row :: rest => do
    let (extended, next) ← rule s row
    let (others, last) ← carry? rule next rest
    return (extended :: others, last)

def Weights.factorAt? (w : Weights Cubic) (row : ExtendedRow) (x y z : Nat) : Option Cubic := do
  return w.factor (← row[x]?) (← row[y]?) (← row[z]?)

namespace Extension

def processor? (ch : Challenges) (p : Permutations) (row : Row) :
    Option (ExtendedRow × Permutations) := do
  let extended := row.lift ++ [p.instruction, p.memory]
  if (← row[2]?) = 0 then return (extended, p)
  let instruction ← ch.instructionWeights.factorAt? extended 1 2 3
  let memory ← ch.memoryWeights.factorAt? extended 0 4 5
  return (extended, ⟨p.instruction * instruction, p.memory * memory⟩)

/-- Takes in the factor of a row that repeats the address before it, then appends the product. The
state is that address, if there is a row before, and the product. -/
def instruction? (ch : Challenges) (s : Option Goldilocks × Cubic) (row : Row) :
    Option (ExtendedRow × (Option Goldilocks × Cubic)) := do
  let address ← row[0]?
  if s.1 = some address then
    let factor ← ch.instructionWeights.factorAt? row.lift 0 1 2
    return (row.lift ++ [s.2 * factor], (some address, s.2 * factor))
  return (row.lift ++ [s.2], (some address, s.2))

def memory? (ch : Challenges) (product : Cubic) (row : Row) : Option (ExtendedRow × Cubic) := do
  let extended := row.lift ++ [product]
  if (← row[3]?) ≠ 0 then return (extended, product)
  let factor ← ch.memoryWeights.factorAt? extended 0 1 2
  return (extended, product * factor)

structure SymbolState where
  row : Nat := 0
  evaluation : Cubic := 0
  /-- The evaluation after the last row before padding, once that row is passed. -/
  terminal : Cubic := 0

def symbol? (point : Cubic) (length : Int) (s : SymbolState) (row : Row) :
    Option (ExtendedRow × SymbolState) := do
  let evaluation := s.evaluation * point + (← row.lift[0]?)
  let terminal := if (s.row : Int) = length - 1 then evaluation else s.terminal
  return (row.lift ++ [evaluation], ⟨s.row + 1, evaluation, terminal⟩)

def symbols? (point : Cubic) (length : Int) (rows : List Row) :
    Option (List ExtendedRow × Cubic) := do
  let (extended, s) ← Row.carry? (symbol? point length) {} rows
  return (extended, s.terminal)

end Extension

namespace Kind

/-- The extended rows of a matrix and the terminals of its arguments. The length, the number of rows
before padding, tells a symbol table where its terminal stands. -/
def extend? (ch : Challenges) (initial : Permutations) (length : Int) (rows : List Row) :
    (k : Kind) → Option (List ExtendedRow × k.Summary)
  | .processor => Row.carry? (Extension.processor? ch) initial rows
  | .instruction => do
    let (extended, s) ← Row.carry? (Extension.instruction? ch) (none, initial.instruction) rows
    return (extended, s.2)
  | .memory => Row.carry? (Extension.memory? ch) initial.memory rows
  | .input => Extension.symbols? (evaluationPoint ch .input) length rows
  | .output => Extension.symbols? (evaluationPoint ch .output) length rows

end Kind

end TapeAir
