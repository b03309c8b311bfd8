import TapeAir.Machine.Run
import TapeAir.Poly.Shaped
import TapeAir.Table.Basic
import TapeAir.Text.Numeral
/-! # Everything that can go wrong

The errors of all parts of the library, and those of requests that fit no part. Each has at most one
wording.
-/
namespace TapeAir

inductive Undefined where
  | summary
  | pad
  | baseTransition
  | baseBoundary
  | extend
  | transition
  | boundary
  | terminal
  | rows
  | symbols
deriving DecidableEq, Repr

def Undefined.text : Undefined → String
  | .summary => "보조 상태(More)가"
  | .pad => "pad 가"
  | .baseTransition => "기저 전이 제약이"
  | .baseBoundary => "기저 경계 제약이"
  | .extend => "extend 가"
  | .transition => "확장 전이 제약이"
  | .boundary => "확장 경계 제약이"
  | .terminal => "확장 종단 제약이"
  | .rows => "derive_matrix 가"
  | .symbols => "기호 추출이"

inductive Error where
  | bracket (e : BracketError)
  | fault (e : Fault)
  | root (e : RootError)
  | poly (e : PolyError)
  | argument (e : ArgumentError)
  | table (e : TableError)
  /-- An empty table, by its name, has no trace domain. -/
  | noTraceDomain (name : String)
  | undefined (name : String) (what : Undefined)
  /-- A table is to be made of a kind that goes by this shown form, and there is none. -/
  | unknownKind (shown : String)
  | noKind (shown : String)
  | unknownInstruction (symbol : String)
  | coefficientCount
  | columnCount (expected found : Nat)
  | numeral (e : NumeralError)
  | overflow
  | operands
  | endless
  /-- A row, column or variable is asked for that is not there. -/
  | outOfRange
deriving DecidableEq

namespace Error

def message : Error → Option String
  | .bracket e => some e.message
  | .fault e => e.message
  | .root e => some e.message
  | .poly e => e.message
  | .argument e => some e.message
  | .table e => e.message
  | .noTraceDomain name => some s!"{name}: 빈 테이블에는 트레이스 도메인이 없습니다"
  | .undefined _ .rows => some s!"{Undefined.rows.text} 정의되지 않았습니다"
  | .undefined name what => some s!"{name}: {what.text} 정의되지 않았습니다"
  | .unknownKind shown => some s!"알 수 없는 테이블 종류입니다: {shown}"
  | .noKind shown => some s!"{shown} is not a valid TableKind"
  | .unknownInstruction symbol =>
    let shown := Text.quoted symbol
    some s!"알 수 없는 명령어입니다: {shown}"
  | .coefficientCount => some "coeffs and modulus_coeffs aren't of the same length"
  | .columnCount expected found =>
    if found < expected then
      some s!"not enough values to unpack (expected {expected}, got {found})"
    else some s!"too many values to unpack (expected {expected})"
  | .numeral e => some e.message
  | .overflow => none
  | .operands => none
  | .endless => none
  | .outOfRange => none

end Error

def Cubic.ofList (coefficients : List Goldilocks) : Except Error Cubic :=
  match Cubic.ofList? coefficients with
  | some x => .ok x
  | none => .error .coefficientCount

def Outline.omicron (o : Outline) : Except Error Goldilocks :=
  match o.omicron? with
  | some g => .ok g
  | none => .error (.noTraceDomain o.name)

end TapeAir
