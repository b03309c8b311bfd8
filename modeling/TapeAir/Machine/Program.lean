import TapeAir.Machine.Instruction
/-! # Programs and the compiler

A program is a list of cells. An instruction takes one cell, its code, and a bracket takes a second
one, its operand: the address of the cell after the partner's operand. The compiler reads the source
once; it leaves the operand of an opening bracket open until it meets the closing one.
-/
namespace TapeAir

abbrev Program := Array Goldilocks

/-- A bracket without a partner, by the address of its cell. -/
inductive BracketError where
  | unopened (address : Nat)
  | unclosed (address : Nat)
deriving DecidableEq, Repr

def BracketError.message : BracketError → String
  | .unopened address => s!"짝이 없는 ']' 입니다 (주소 {address})"
  | .unclosed address => s!"짝이 없는 '[' 입니다 (주소 {address})"

namespace Program

structure Draft where
  cells : Program := #[]
  /-- The addresses of the opening brackets that wait for a partner, innermost first. -/
  waiting : List Nat := []

def Draft.emit (d : Draft) (i : Instruction) : Except BracketError Draft :=
  let address := d.cells.size
  let cells := d.cells.push (i.code : Goldilocks)
  match i with
  | .loopStart => .ok ⟨cells.push 0, address :: d.waiting⟩
  | .loopEnd =>
    match d.waiting with
    | [] => .error (.unopened address)
    | start :: rest =>
      let cells := cells.push ((start + 2 : Nat) : Goldilocks)
      .ok ⟨cells.setIfInBounds (start + 1) (cells.size : Goldilocks), rest⟩
  | _ => .ok { d with cells }

def assemble (is : List Instruction) : Except BracketError Program := do
  let d ← is.foldlM Draft.emit {}
  match d.waiting with
  | [] => return d.cells
  | address :: _ => throw (.unclosed address)

def compile (source : String) : Except BracketError Program :=
  assemble (source.toList.filterMap Instruction.ofSymbol?)

end Program

end TapeAir
