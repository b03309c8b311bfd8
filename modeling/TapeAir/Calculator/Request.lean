import TapeAir.Calculator.Comparison
import TapeAir.Calculator.Formula
import TapeAir.Place
/-! # Requests to the calculator

A session is a list of requests, each answered by a value or an error. An operand is a scalar or the
value of an earlier request; an error takes nothing back. All operands of a request are read, in
their order, before it is carried out.
-/
namespace TapeAir

inductive Operand where
  | int (z : Int)
  | base (a : Goldilocks)
  /-- An extension element by its coefficients, of which there must be three. -/
  | ext (coefficients : List Goldilocks)
  | result (step : Nat)

inductive Request where
  | operate (op : Operator) (a b : Operand)
  | compare (op : Comparison) (a b : Operand)
  | negate (a : Operand)
  | isZero (a : Operand)
  | invert (a : Operand)
  | integer (a : Operand)
  | degree (a : Operand)
  | shown (a : Operand)
  | power (a : Operand) (e : Nat)
  | toBase (a : Operand)
  | toExtension (coefficients : List Operand)
  | lift (a : Operand)
  | zero (l : Level)
  | one (l : Level)
  | isPowerOfTwo (n : Int)
  | nextPowerOfTwo (n : Int)
  | rootOfUnity (n : Int)
  | sample (count : Int) (seed : String)
  | polynomial (s : Shape) (terms : List (List Nat × Operand))
  | zeroPolynomial (s : Shape)
  | constantPolynomial (a : Operand) (arity : Int)
  | indeterminates (s : Shape)
  | indeterminate (s : Shape) (index : Int)
  | evaluate (a : Operand) (point : List Operand)
  | liftPolynomial (a : Operand)
  | selector (symbol : String) (a : Operand)
  | zerofier (a : Operand)
  | switchedEffect (symbol : String) (columns : List Operand)
  | transition (k : Kind) (columns : List Operand)
  | evaluation (point : Operand) (symbols : List Operand)
  | arguments (family : ArgumentFamily) (values : List Operand)
  | sampleArguments (family : ArgumentFamily) (seed : String)

namespace Calculator

abbrev Results := Array (Except Error Value)

def read (results : Results) : Operand → Except Error Value
  | .int z => .ok (.int z)
  | .base a => .ok (.base a)
  | .ext cs => (Cubic.ofList cs).map .ext
  | .result step =>
    match results[step]? with
    | some (.ok v) => .ok v
    | _ => .error .operands

def readAll (results : Results) (operands : List Operand) : Except Error (List Value) :=
  operands.mapM (read results)

def allIndeterminates (s : Shape) : Except Error (List AnyPoly) :=
  (AnyPoly.indeterminates s).mapError .poly

def readPoly (results : Results) (a : Operand) : Except Error AnyPoly := do
  (← read results a).toPoly

def readTerms (results : Results) (terms : List (List Nat × Operand)) :
    Except Error (List (List Nat × Value)) :=
  terms.mapM fun t => do return (t.1, ← read results t.2)

def valueOf (results : Results) : Request → Except Error Value
  | .operate op a b => do op.apply (← read results a) (← read results b)
  | .compare op a b => do return .truth (← op.apply (← read results a) (← read results b))
  | .negate a => do (← read results a).negate
  | .isZero a => do return .truth (← (← read results a).isZero)
  | .invert a => do (← read results a).invert
  | .integer a => do return .int (← (← read results a).toInt)
  | .degree a => do return .int (← (← read results a).degree)
  | .shown a => do return .text (← read results a).shown
  | .power a e => do (← read results a).power e
  | .toBase a => do return .base (← (← read results a).toGoldilocks)
  | .toExtension cs => do return .ext (← Value.toExtension (← readAll results cs))
  | .lift a => do return .ext (← (← read results a).toCubic)
  | .zero l => .ok (.scalar (.ofLevel l 0))
  | .one l => .ok (.scalar (.ofLevel l 1))
  | .isPowerOfTwo n => .ok (.truth (TapeAir.isPowerOfTwo n))
  | .nextPowerOfTwo n => .ok (.int (TapeAir.nextPowerOfTwo n))
  | .rootOfUnity n => (Goldilocks.rootOfUnity n).mapError .root |>.map .base
  | .sample count seed => .ok (.list ((Cubic.sample seed count.toNat).map .ext))
  | .polynomial s ts => do return .poly (← Value.polynomial s (← readTerms results ts))
  | .zeroPolynomial s => .ok (.poly (.zero s))
  | .constantPolynomial a n => do return .poly (← (← read results a).toOwnConstant n)
  | .indeterminates s => do return .list ((← allIndeterminates s).map .poly)
  | .indeterminate s index => do
    match Place.at? (← allIndeterminates s) index with
    | some p => return .poly p
    | none => throw .outOfRange
  | .evaluate a point => do
    let p ← readPoly results a
    let point ← readAll results point
    let value ← (p.eval (point.map Value.toCoordinate?)).mapError .poly
    return .scalar (.ofLevel _ value)
  | .liftPolynomial a => do return .poly (← readPoly results a).lift
  | .selector symbol a => do
    let p ← readPoly results a
    match Instruction.ofText? symbol with
    | some i => Formula.atPoly p i.selector
    | none => Formula.atPoly p Instruction.zerofier
  | .zerofier a => do Formula.atPoly (← readPoly results a) Instruction.zerofier
  | .switchedEffect symbol columns => do
    let values ← readAll results columns
    if values.length ≠ 2 * Kind.processor.baseWidth then throw .operands
    let (r, s) := values.splitAt Kind.processor.baseWidth
    return .list (← Formula.switchedEffect symbol r s)
  | .transition k columns => do
    let (r, s) ← Formula.twoRows k (← readAll results columns)
    return .list (← Formula.transition k r s)
  | .evaluation point symbols => do
    let point ← read results point
    let symbols ← readAll results symbols
    if symbols.isEmpty then return .ext 0
    let point ← point.toFactor
    return .ext (TapeAir.evaluation point (← symbols.mapM Value.toCubic))
  | .arguments family values => do
    let offers := (← readAll results values).map Value.toOffer
    (family.readValues offers).mapError .argument |>.map (.ofArguments family)
  | .sampleArguments family seed => .ok (.ofArguments family (family.sample seed))

/-- Answers one request. The answer must be a value that can be written. -/
def answer (results : Results) (r : Request) : Except Error Value := do
  let v ← valueOf results r
  if v.isWritable then return v else throw (.numeral .tooLarge)

/-- Answers all requests in order. One that could not be read is answered by the reason. -/
def session (requests : List (Except Error Request)) : List (Except Error Value) :=
  (requests.foldl (fun results r => results.push (r.bind (answer results))) (#[] : Results)).toList

end Calculator

end TapeAir
