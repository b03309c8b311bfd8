import TapeAir.Constraint.Check
import TapeAir.Workbench.Setup
/-! # Tables on the workbench

A table of any kind, what is shown of it, and the constraints it is checked against. Base
constraints apply to its matrix and the others to its extended matrix.
-/
namespace TapeAir.Workbench

structure AnyTable where
  kind : Kind
  table : Table kind

structure Info where
  kind : Kind
  outline : Outline
  height : Nat
  omicron : Except Error Goldilocks
  isPadded : Bool
  rows : Nat
  extendedRows : Nat
  shown : String

namespace AnyTable

def info (t : AnyTable) : Info where
  kind := t.kind
  outline := t.table.outline
  height := t.table.height
  omicron := t.table.outline.omicron
  isPadded := t.table.isPadded
  rows := t.table.matrix.length
  extendedRows := t.table.extendedMatrix.length
  shown := t.table.text

def summary (t : AnyTable) : List (String × Cubic) := t.kind.summaryParts t.table.summary

def setMatrix (t : AnyTable) (rows : List Row) : AnyTable :=
  { t with table := { t.table with matrix := rows } }

def setCodewords (t : AnyTable) (rows : List Row) : AnyTable :=
  { t with table := { t.table with codewords := rows } }

def setExtendedMatrix (t : AnyTable) (rows : List ExtendedRow) : AnyTable :=
  { t with table := { t.table with extendedMatrix := rows } }

def pad (t : AnyTable) : Except Error AnyTable := do
  return { t with table := ← t.table.pad.mapError .table }

def extend (t : AnyTable) (ch : Challenges) (initial : Permutations) : Except Error AnyTable := do
  return { t with table := ← (t.table.extend ch initial).mapError .table }

def argumentColumns (t : AnyTable) : List ExtendedRow :=
  t.table.extendedMatrix.map (·.drop t.kind.baseWidth)

end AnyTable

inductive TerminalChoice where
  /-- The terminals that the table's own extension reached. -/
  | own
  | given (p : Parameters)

def TerminalChoice.read (t : AnyTable) : TerminalChoice → Except Error t.kind.Terminals
  | .own => .ok (t.kind.ownTerminals t.table.summary)
  | .given p => (p.read t.kind.terminalFamily).map t.kind.terminalsOfList

inductive Constraints where
  | base {n : Nat} (cs : List (Poly Goldilocks n))
  | ext {n : Nat} (cs : List (Poly Cubic n))

def Constraints.polynomials : Constraints → List AnyPoly
  | .base (n := n) cs => cs.map fun p => ⟨⟨.base, n⟩, p⟩
  | .ext (n := n) cs => cs.map fun p => ⟨⟨.ext, n⟩, p⟩

structure Selection where
  first : Option Int := none
  last : Option Int := none
  row : Int := 0

inductive Evaluated (F : Type) where
  | row (values : List F)
  | pairs (values : List (List F))

def relatesRows : Family → Bool
  | .baseTransition => true
  | .transition => true
  | _ => false

section Evaluation
variable {F : Type} [Zero F] [Add F] [Mul F] [Pow F Nat] {n : Nat}

def evaluateAt (f : Family) (s : Selection) (cs : List (Poly F n)) (rows : List (List F)) :
    Except Error (Evaluated F) :=
  if relatesRows f then
    (pairValues cs (Place.range rows s.first s.last)).mapError .poly |>.map .pairs
  else
    match Place.at? rows s.row with
    | some row => (rowValues cs row).mapError .poly |>.map .row
    | none => .error .outOfRange

end Evaluation

inductive Violations where
  | row (constraints : List Nat)
  | pairs (places : List (Nat × Nat))

def Evaluated.violations {F : Type} [Zero F] [DecidableEq F] : Evaluated F → Violations
  | .row values => .row (nonzeroPlaces values)
  | .pairs values => .pairs (violatedPairs values)

end TapeAir.Workbench
