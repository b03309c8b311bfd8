import TapeAir.Table.Derivation
import TapeAir.Table.Extension
import TapeAir.Table.Outline
import TapeAir.Table.Padding
/-! # Tables

A table holds its matrix and, after an extension, the extended matrix and the terminals of its
arguments. Nothing checks the rows that it is given; an operation that fails changes nothing.
-/
namespace TapeAir

structure Table (k : Kind) where
  /-- The number of rows before padding. -/
  length : Int
  numRandomizers : Int
  generator : Goldilocks
  order : Int
  matrix : List Row := []
  extendedMatrix : List ExtendedRow := []
  /-- Values of the columns on the evaluation domain, as they come from outside. -/
  codewords : List Row := []
  extendedCodewords : List ExtendedRow := []
  summary : k.Summary := k.emptySummary

structure Domain where
  numRandomizers : Int
  generator : Goldilocks
  order : Int

inductive TableError where
  | emptyMatrix (k : Kind)
  /-- A row lacks a cell that the operation reads. -/
  | missingCell
  | derivation (e : DerivationError)
deriving DecidableEq

def TableError.message : TableError → Option String
  | .emptyMatrix k => some s!"{k.title}: 빈 행렬은 패딩할 수 없습니다 (실행한 명령이 없음)"
  | .missingCell => none
  | .derivation (.malformed m) => some m.message
  | .derivation .unseenSymbol => none

namespace Table
variable {k : Kind}

def empty (k : Kind) (length : Int) (d : Domain) : Table k where
  length := length
  numRandomizers := d.numRandomizers
  generator := d.generator
  order := d.order

def outline (t : Table k) : Outline where
  name := k.title
  baseWidth := k.baseWidth
  fullWidth := k.fullWidth
  length := t.length
  numRandomizers := t.numRandomizers
  generator := t.generator
  order := t.order

def height (t : Table k) : Nat := t.outline.height

def isPadded (t : Table k) : Bool := t.outline.isPadded t.matrix.length

def text (t : Table k) : String :=
  s!"{k.typeName}({t.outline.text})"

/-- Pads the matrix to a power of two. Only symbol tables may be empty. -/
def pad (t : Table k) : Except TableError (Table k) :=
  if t.matrix.isEmpty && !k.mayBeEmpty then .error (.emptyMatrix k)
  else
    match k.padding? t.matrix with
    | some rows => .ok { t with matrix := t.matrix ++ rows }
    | none => .error .missingCell

def extend (t : Table k) (ch : Challenges) (initial : Permutations) :
    Except TableError (Table k) :=
  match k.extend? ch initial t.length t.matrix with
  | some (extended, summary) =>
    .ok { t with
      extendedMatrix := extended
      extendedCodewords := t.codewords.map Row.lift
      summary := summary }
  | none => .error .missingCell

def derive (k : Kind) (trace : Trace) (program : Program) (d : Domain) :
    Except TableError (Table k) :=
  match k.derive trace program with
  | .ok rows => .ok { empty k rows.length d with matrix := rows }
  | .error e => .error (.derivation e)

def ofTrace (k : Kind) (trace : Trace) (program : Program) (d : Domain) :
    Except TableError (Table k) := do
  (← derive k trace program d).pad

def paddingCount (t : Table k) : Nat := (t.height - t.length).toNat

end Table

end TapeAir
