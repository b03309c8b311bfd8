import TapeAir.Workbench.Table
/-! # Sessions on a workbench

A session keeps tables under names and answers one step after the other. A step that fails is
answered by its error and leaves the tables as they are.
-/
namespace TapeAir.Workbench

inductive KindChoice where
  | label (l : Label)
  | kind (k : Kind)

def kindOf? : Label → Option Kind
  | .text s => Kind.ofLabel? s
  | _ => none

def KindChoice.read (unknown : String → Error) : KindChoice → Except Error Kind
  | .kind k => .ok k
  | .label l =>
    match kindOf? l with
    | some k => .ok k
    | none => .error (unknown l.shown)

inductive Question where
  | polynomials
  | violations
  | values

inductive Step where
  | deriveAll
  | trace
  | create (kind : KindChoice) (length : Int)
  | derive (kind : KindChoice)
  | fromTrace (kind : KindChoice)
  | info
  | summary
  | matrix
  | extendedMatrix
  | extendedCodewords
  | setMatrix (rows : List Row)
  | setCodewords (rows : List Row)
  | appendRows (rows : List Row)
  | dropRows (n : Nat)
  | setCell (row column : Int) (v : Goldilocks)
  | setExtendedCell (row column : Int) (coefficients : List Goldilocks)
  | pad
  | extend (challenges initials : Option Parameters)
  | ask (q : Question) (f : Family) (challenges : Option Parameters)
      (terminals : Option TerminalChoice) (s : Selection)

inductive Answer where
  | tables (ts : List AnyTable)
  | matrix (rows : List Row)
  | extendedMatrix (rows : List ExtendedRow)
  | row (r : Row)
  | extendedRow (r : ExtendedRow)
  | count (rows : Nat)
  | table (t : AnyTable)
  | info (i : Info)
  | summary (parts : List (String × Cubic))
  | padded (count : Nat) (added : List Row)
  | extended (arguments : List ExtendedRow) (parts : List (String × Cubic))
  | polynomials (ps : List AnyPoly)
  | violations (v : Violations)
  | baseValues (v : Evaluated Goldilocks)
  | values (v : Evaluated Cubic)

structure Tables where
  entries : List (String × AnyTable) := []

namespace Tables

def find? (ts : Tables) (name : String) : Option AnyTable := ts.entries.lookup name

def insert (ts : Tables) (name : String) (t : AnyTable) : Tables :=
  ⟨(name, t) :: ts.entries.filter (·.1 != name)⟩

end Tables

namespace Bench
variable (b : Bench)

def tableOfTrace (k : Kind) : Except Error AnyTable := do
  return ⟨k, ← (Table.ofTrace k b.trace b.program b.domain).mapError .table⟩

def derivedTable (k : Kind) : Except Error AnyTable := do
  return ⟨k, ← (Table.derive k b.trace b.program b.domain).mapError .table⟩

def challengesOr (p : Option Parameters) : Except Error Challenges :=
  match p with
  | some p => p.challenges
  | none => .ok b.challenges

def initialsOr (p : Option Parameters) : Except Error Permutations :=
  match p with
  | some p => p.initials
  | none => .ok b.initials

/-- The constraints of a family for a table. Base constraints read no parameters. Others read the
challenges, also where their formulas use none, and terminal constraints then read the terminals. -/
def constraints (t : AnyTable) (f : Family) (challenges : Option Parameters)
    (terminals : Option TerminalChoice) : Except Error Constraints :=
  match f with
  | .baseTransition => .ok (.base t.kind.baseTransition)
  | .baseBoundary => .ok (.base t.kind.baseBoundary)
  | .transition => do return .ext (t.kind.transition (← b.challengesOr challenges))
  | .boundary => do
    let _ ← b.challengesOr challenges
    return .ext t.kind.boundary
  | .terminal => do
    let ch ← b.challengesOr challenges
    match terminals with
    | none => throw .operands
    | some choice =>
      return .ext (t.kind.terminal ch t.table.paddingCount (← choice.read t))

/-- Answers a question about the constraints of a table. The constraints are built before any row is
looked at. -/
def answerQuestion (t : AnyTable) (q : Question) (f : Family) (challenges : Option Parameters)
    (terminals : Option TerminalChoice) (s : Selection) : Except Error Answer := do
  let cs ← b.constraints t f challenges terminals
  match q, cs with
  | .polynomials, cs => return .polynomials cs.polynomials
  | .violations, .base cs =>
    return .violations (← evaluateAt f s cs t.table.matrix).violations
  | .violations, .ext cs =>
    return .violations (← evaluateAt f s cs t.table.extendedMatrix).violations
  | .values, .base cs => return .baseValues (← evaluateAt f s cs t.table.matrix)
  | .values, .ext cs => return .values (← evaluateAt f s cs t.table.extendedMatrix)

def useTable (t : AnyTable) : Step → Except Error (Answer × AnyTable)
  | .info => .ok (.info t.info, t)
  | .summary => .ok (.summary t.summary, t)
  | .matrix => .ok (.matrix t.table.matrix, t)
  | .extendedMatrix => .ok (.extendedMatrix t.table.extendedMatrix, t)
  | .extendedCodewords => .ok (.extendedMatrix t.table.extendedCodewords, t)
  | .setMatrix rows => .ok (.count rows.length, t.setMatrix rows)
  | .setCodewords rows => .ok (.count rows.length, t.setCodewords rows)
  | .appendRows rows =>
    let rows := t.table.matrix ++ rows
    .ok (.count rows.length, t.setMatrix rows)
  | .dropRows n =>
    let rows := Place.withoutLast t.table.matrix n
    .ok (.count rows.length, t.setMatrix rows)
  | .setCell row column v =>
    match Place.replaceCell? t.table.matrix row column v with
    | some rows => .ok (.row ((Place.at? rows row).getD []), t.setMatrix rows)
    | none => .error .outOfRange
  | .setExtendedCell row column coefficients => do
    let v ← Cubic.ofList coefficients
    match Place.replaceCell? t.table.extendedMatrix row column v with
    | some rows => return (.extendedRow ((Place.at? rows row).getD []), t.setExtendedMatrix rows)
    | none => throw .outOfRange
  | .pad => do
    let padded ← t.pad
    let rows := padded.table.matrix
    return (.padded rows.length (rows.drop t.table.matrix.length), padded)
  | .extend challenges initials => do
    let extended ← t.extend (← b.challengesOr challenges) (← b.initialsOr initials)
    return (.extended extended.argumentColumns extended.summary, extended)
  | .ask q f challenges terminals s => do
    return (← b.answerQuestion t q f challenges terminals s, t)
  | _ => .error .operands

def perform (ts : Tables) (name : String) : Step → Except Error (Answer × Tables)
  | .deriveAll => do
    let tables ← Kind.all.mapM b.tableOfTrace
    return (.tables tables, tables.foldl (fun ts t => ts.insert t.kind.label t) ts)
  | .trace => .ok (.matrix (b.trace.map Register.toList), ts)
  | .create kind length => do
    let t : AnyTable := ⟨← kind.read .unknownKind, Table.empty _ length b.domain⟩
    return (.info t.info, ts.insert name t)
  | .derive kind => do
    let t ← b.derivedTable (← kind.read .noKind)
    return (.matrix t.table.matrix, ts.insert name t)
  | .fromTrace kind => do
    let t ← b.tableOfTrace (← kind.read .noKind)
    return (.table t, ts.insert name t)
  | step =>
    match ts.find? name with
    | none => .error .outOfRange
    | some t => do
      let (answer, t) ← b.useTable t step
      return (answer, ts.insert name t)

/-- The answers to the steps of a session, which starts with the given tables. A step that could not
be read is answered by the reason. -/
def answers : Tables → List (Except Error (String × Step)) → List (Except Error Answer)
  | _, [] => []
  | ts, .error e :: rest => .error e :: answers ts rest
  | ts, .ok (name, step) :: rest =>
    match b.perform ts name step with
    | .ok (answer, ts) => .ok answer :: answers ts rest
    | .error e => .error e :: answers ts rest

end Bench

/-- A whole session. An error while setting up is the only answer. -/
def session (s : Setup) (steps : List (Except Error (String × Step))) :
    Except Error (List (Except Error Answer)) := do
  return (← s.bench).answers {} steps

end TapeAir.Workbench
