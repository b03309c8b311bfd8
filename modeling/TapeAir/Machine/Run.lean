import TapeAir.Machine.Program
import TapeAir.Machine.Register
import TapeAir.Machine.Tape
/-! # Running a program

Each cycle shows the registers, then carries out the instruction under the instruction pointer. The
run ends when that pointer leaves the program; the registers after it close the trace, with both
instruction columns zero. A run may go on for ever, so it is counted down by fuel, and an outcome
does not depend on how much fuel was left.
-/
namespace TapeAir

inductive Fault where
  | inputExhausted (cycle : Nat)
  /-- A bracket had to jump, but its operand lies outside the program. -/
  | missingOperand
  /-- The cell is beyond the last character. -/
  | noCharacter
  /-- The cell does not fit a signed word of thirty-two bits. -/
  | cellTooLarge
deriving DecidableEq, Repr

def Fault.message : Fault → Option String
  | .inputExhausted cycle => some s!"입력이 부족합니다 (사이클 {cycle})"
  | .noCharacter => some "chr() arg not in range(0x110000)"
  | .missingOperand => none
  | .cellTooLarge => none

structure Machine where
  cycle : Nat := 0
  instructionPointer : Nat := 0
  memoryPointer : Goldilocks := 0
  tape : Tape := {}
  input : List Goldilocks

namespace Machine

def value (m : Machine) : Goldilocks := m.tape.read m.memoryPointer

def register (m : Machine) (current next : Goldilocks) : Register Goldilocks where
  cycle := (m.cycle : Goldilocks)
  instructionPointer := (m.instructionPointer : Goldilocks)
  currentInstruction := current
  nextInstruction := next
  memoryPointer := m.memoryPointer
  memoryValue := m.value
  memoryValueInverse := m.value⁻¹

/-- The registers at the start of a cycle; a cell past the end counts as zero. -/
def snapshot (m : Machine) (program : Program) : Register Goldilocks :=
  m.register (program[m.instructionPointer]?.getD 0) (program[m.instructionPointer + 1]?.getD 0)

def final (m : Machine) : Register Goldilocks := m.register 0 0

def goto (m : Machine) (address : Nat) : Machine :=
  { m with cycle := m.cycle + 1, instructionPointer := address }

def advance (m : Machine) : Machine := m.goto (m.instructionPointer + 1)

def skipOperand (m : Machine) : Machine := m.goto (m.instructionPointer + 2)

def jump (m : Machine) (program : Program) : Except Fault Machine :=
  match program[m.instructionPointer + 1]? with
  | some target => .ok (m.goto target.val)
  | none => .error .missingOperand

def store (m : Machine) (v : Goldilocks) : Machine :=
  { m with tape := m.tape.write m.memoryPointer v }

def execute (m : Machine) (program : Program) : Instruction → Except Fault Machine
  | .loopStart => if m.value = 0 then m.jump program else .ok m.skipOperand
  | .loopEnd => if m.value = 0 then .ok m.skipOperand else m.jump program
  | .left => .ok { m with memoryPointer := m.memoryPointer - 1 }.advance
  | .right => .ok { m with memoryPointer := m.memoryPointer + 1 }.advance
  | .increment => .ok (m.store (m.value + 1)).advance
  | .decrement => .ok (m.store (m.value - 1)).advance
  | .read =>
    match m.input with
    | [] => .error (.inputExhausted m.cycle)
    | v :: rest => .ok { m.store v with input := rest }.advance
  | .write => .ok m.advance

/-- The instruction in a cell. A cell that holds another character has none: the machine stays
where it is, for ever. -/
def decode (cell : Goldilocks) : Except Fault (Option Instruction) :=
  if cell.val ≥ 0x80000000 then .error .cellTooLarge
  else if cell.val ≥ 0x110000 then .error .noCharacter
  else .ok (Instruction.ofCode? cell.val)

def emitted (m : Machine) : Option Instruction → Option Goldilocks
  | some .write => some m.value
  | _ => none

/-- One cycle with the given cell under the instruction pointer: the machine after it, and the
symbol that it wrote. -/
def step (m : Machine) (program : Program) (cell : Goldilocks) :
    Except Fault (Machine × Option Goldilocks) := do
  let i ← decode cell
  let next ← match i with
    | some i => m.execute program i
    | none => .ok (m.goto m.instructionPointer)
  return (next, m.emitted i)

end Machine

structure Run where
  trace : Trace
  output : List Goldilocks
deriving DecidableEq

namespace Run

/-- Goes on from a machine for at most `fuel` cycles, with the trace and the output so far in
reverse. There is no result if the fuel runs out. -/
def continueFrom (program : Program) :
    Nat → Machine → Trace → List Goldilocks → Option (Except Fault Run)
  | 0, _, _, _ => none
  | fuel + 1, m, past, output =>
    match program[m.instructionPointer]? with
    | none => some (.ok ⟨(m.final :: past).reverse, output.reverse⟩)
    | some cell =>
      match m.step program cell with
      | .error e => some (.error e)
      | .ok (next, symbol) =>
        continueFrom program fuel next (m.snapshot program :: past) (symbol.toList ++ output)

end Run

/-- The outcome of a program on an input, if it ends within the given number of cycles. -/
def simulate (fuel : Nat) (program : Program) (input : List Goldilocks) :
    Option (Except Fault Run) :=
  Run.continueFrom program fuel { input } [] []

end TapeAir
