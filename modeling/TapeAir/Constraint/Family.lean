import TapeAir.Constraint.Evaluation
import TapeAir.Constraint.Lookup
import TapeAir.Constraint.Memory
import TapeAir.Constraint.Step
import TapeAir.Poly.Basic
import TapeAir.Table.Kind
/-! # The constraints of each kind of table

Transition constraints are polynomials in the columns of two consecutive rows, the second after the
first; boundary and terminal constraints are polynomials in the columns of one row. An extended
table repeats the base constraints with lifted coefficients and adds those of its arguments.
-/
namespace TapeAir

inductive Family where
  | baseTransition
  | baseBoundary
  | transition
  | boundary
  | terminal
deriving DecidableEq, Repr

namespace Kind

section Formulas
variable {α : Type} [Zero α] [One α] [Add α] [Sub α] [Mul α] [NatCast α]

/-- The transition formulas of the base columns, with the columns of both rows given by number.
Symbols are free. -/
def transitionFormulas (k : Kind) (r s : Nat → α) : List α :=
  match k with
  | .processor => (Register.ofColumns r).transition (.ofColumns s)
  | .instruction => (InstructionRow.ofColumns r).transition (.ofColumns s)
  | .memory => (MemoryRow.ofColumns r).transition (.ofColumns s)
  | .input => []
  | .output => []

def boundaryFormulas (k : Kind) (r : Nat → α) : List α :=
  match k with
  | .processor => (Register.ofColumns r).boundary
  | .instruction => (InstructionRow.ofColumns r).boundary
  | .memory => (MemoryRow.ofColumns r).boundary
  | .input => []
  | .output => []

def argumentTransition (constant : Cubic → α) (ch : Challenges) (k : Kind) (r s : Nat → α) :
    List α :=
  match k with
  | .processor =>
    (ProcessorRow.ofColumns r).productsAre (ch.instructionWeights.map constant)
      (ch.memoryWeights.map constant) (s 7) (s 8)
  | .instruction =>
    [(InstructionRow.ofColumns r).carries (ch.instructionWeights.map constant) (.ofColumns s)
      (r 3) (s 3)]
  | .memory =>
    [(MemoryRow.ofColumns r).carries (ch.memoryWeights.map constant) (r 4) (s 4)]
  | .input =>
    [(SymbolRow.ofColumns r).transition (constant (evaluationPoint ch .input)) (.ofColumns s)]
  | .output =>
    [(SymbolRow.ofColumns r).transition (constant (evaluationPoint ch .output)) (.ofColumns s)]

/-- The boundary formulas of the argument columns. Running products start free. -/
def argumentBoundary (k : Kind) (r : Nat → α) : List α :=
  match k with
  | .input => [(SymbolRow.ofColumns r).boundary]
  | .output => [(SymbolRow.ofColumns r).boundary]
  | _ => []

/-- The formulas by which the last row reaches the terminals. An evaluation terminal is carried over
`padding` further rows. -/
def argumentTerminal (constant : Cubic → α) (ch : Challenges) (padding : Nat) (r : Nat → α) :
    (k : Kind) → k.Terminals → List α
  | .processor, (t : Permutations) =>
    (ProcessorRow.ofColumns r).productsAre (ch.instructionWeights.map constant)
      (ch.memoryWeights.map constant) (constant t.instruction) (constant t.memory)
  | .instruction, (t : Permutations) => [r 3 - constant t.instruction]
  | .memory, (t : Permutations) =>
    [(MemoryRow.ofColumns r).ends (ch.memoryWeights.map constant) (r 4) (constant t.memory)]
  | .input, (t : Evaluations) =>
    [(SymbolRow.ofColumns r).ends (constant (t.input * evaluationPoint ch .input ^ padding))]
  | .output, (t : Evaluations) =>
    [(SymbolRow.ofColumns r).ends (constant (t.output * evaluationPoint ch .output ^ padding))]

end Formulas

variable (k : Kind)

def baseTransition : List (Poly Goldilocks (2 * k.baseWidth)) :=
  k.transitionFormulas .X fun j => .X (k.baseWidth + j)

def baseBoundary : List (Poly Goldilocks k.baseWidth) := k.boundaryFormulas .X

def transition (ch : Challenges) : List (Poly Cubic (2 * k.fullWidth)) :=
  let base : List (Poly Goldilocks (2 * k.fullWidth)) :=
    k.transitionFormulas .X fun j => .X (k.fullWidth + j)
  base.map (Poly.map Cubic.lift)
    ++ k.argumentTransition .const ch .X fun j => .X (k.fullWidth + j)

def boundary : List (Poly Cubic k.fullWidth) :=
  k.boundaryFormulas .X ++ k.argumentBoundary .X

def terminal (ch : Challenges) (padding : Nat) (t : k.Terminals) :
    List (Poly Cubic k.fullWidth) :=
  argumentTerminal .const ch padding .X k t

end Kind

end TapeAir
