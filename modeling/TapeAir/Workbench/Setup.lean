import TapeAir.Error
import TapeAir.Place
import TapeAir.Text.Label
/-! # Setting up a workbench

A workbench works on one program and one trace of it. The trace is given or comes from a run, and
may then be changed to try how the tables judge it. The parameters of the arguments are given or
drawn from a seed.
-/
namespace TapeAir.Workbench

inductive ProgramChoice where
  | source (text : String)
  | cells (cells : List Int)

def ProgramChoice.program : ProgramChoice → Except Error Program
  | .source s => (Program.compile s).mapError .bracket
  | .cells zs => .ok (zs.map Goldilocks.ofInt).toArray

inductive Parameters where
  | seed (l : Label)
  | values (vs : List (List Goldilocks))

def Parameters.read (family : ArgumentFamily) :
    Parameters → Except Error (List Cubic)
  | .seed l => .ok (family.sample l.plain)
  | .values vs => do
    let elements ← vs.mapM Cubic.ofList
    (family.readValues (elements.map .element)).mapError .argument

def Parameters.challenges (p : Parameters) : Except Error Challenges :=
  (p.read .challenges).map .ofList

def Parameters.initials (p : Parameters) : Except Error Permutations :=
  (p.read .initials).map .ofList

structure Edit where
  row : Int
  column : Int
  value : Int

structure Setup where
  program : ProgramChoice
  /-- The rows of the trace, unless it comes from a run. -/
  trace : Option (List (List Int)) := none
  input : List Int := []
  /-- How many rows are dropped from the end of the trace. -/
  drop : Nat := 0
  append : List (List Int) := []
  edits : List Edit := []
  challenges : Parameters := .seed (.int 7)
  initials : Parameters := .seed (.int 11)
  order : Int := Goldilocks.maximalOrder
  generator : Option Int := none
  numRandomizers : Int := 2

def Edit.apply (e : Edit) (rows : List Row) : Except Error (List Row) :=
  match Place.replaceCell? rows e.row e.column (.ofInt e.value) with
  | some rows => .ok rows
  | none => .error .outOfRange

structure Bench where
  program : Program
  trace : Trace
  challenges : Challenges
  initials : Permutations
  domain : Domain

def cycleLimit : Nat := 1000000

def run (program : Program) (input : List Int) : Except Error Run :=
  match simulate cycleLimit program (input.map .ofInt) with
  | some (.ok r) => .ok r
  | some (.error e) => .error (.fault e)
  | none => .error .endless

def Setup.givenTrace (s : Setup) (program : Program) : Except Error Trace :=
  match s.trace with
  | some rows => .ok (rows.map Register.ofInts)
  | none => (run program s.input).map (·.trace)

def Setup.bench (s : Setup) : Except Error Bench := do
  let program ← s.program.program
  let given ← s.givenTrace program
  let kept := Place.withoutLast given s.drop ++ s.append.map Register.ofInts
  let rows ← s.edits.foldlM (fun rows e => e.apply rows) (kept.map Register.toList)
  let generator ← match s.generator with
    | some g => pure (Goldilocks.ofInt g)
    | none => (Goldilocks.rootOfUnity Goldilocks.maximalOrder).mapError .root
  return {
    program
    trace := rows.map Register.ofRow
    challenges := ← s.challenges.challenges
    initials := ← s.initials.initials
    domain := ⟨s.numRandomizers, generator, s.order⟩ }

end TapeAir.Workbench
