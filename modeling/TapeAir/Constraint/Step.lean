import TapeAir.Constraint.Compression
import TapeAir.Constraint.Selector
import TapeAir.Machine.Register
/-! # Consecutive registers

The constraints of the processor table say that consecutive rows are one step of the machine apart.
Rows with an instruction enter both permutation arguments; the columns of running products show the
product before the row's own factor.
-/
namespace TapeAir

/-- What an instruction asks of the next row: one value for each register it may change, zero when
the register is as the instruction leaves it. -/
structure Effect (α : Type) where
  instructionPointer : α
  memoryPointer : α
  memoryValue : α
deriving DecidableEq

namespace Effect

def map {α β : Type} (f : α → β) (e : Effect α) : Effect β :=
  ⟨f e.instructionPointer, f e.memoryPointer, f e.memoryValue⟩

def toList {α : Type} (e : Effect α) : List α :=
  [e.instructionPointer, e.memoryPointer, e.memoryValue]

end Effect

structure ProcessorRow (α : Type) where
  register : Register α
  instructionProduct : α
  memoryProduct : α

namespace Register
variable {α : Type} [Zero α] [One α] [Add α] [Sub α] [Mul α] [NatCast α]

/-- Zero unless the memory value is zero, provided that the inverse column is right. -/
def valueIsZero (r : Register α) : α := r.memoryValue * r.memoryValueInverse - 1

def skips (r s : Register α) : α := s.instructionPointer - r.instructionPointer - (1 + 1)

def jumps (r s : Register α) : α := s.instructionPointer - r.nextInstruction

def advances (r s : Register α) : α := s.instructionPointer - r.instructionPointer - 1

def keepsPointer (r s : Register α) : α := s.memoryPointer - r.memoryPointer

def keepsValue (r s : Register α) : α := s.memoryValue - r.memoryValue

/-- The effect of an instruction between two rows. The value after a move of the memory pointer is
left to the memory argument, and the value after a read to the input argument. -/
def effect (i : Instruction) (r s : Register α) : Effect α :=
  match i with
  | .loopStart =>
    ⟨r.memoryValue * skips r s + valueIsZero r * jumps r s, keepsPointer r s, keepsValue r s⟩
  | .loopEnd =>
    ⟨valueIsZero r * skips r s + r.memoryValue * jumps r s, keepsPointer r s, keepsValue r s⟩
  | .left => ⟨advances r s, keepsPointer r s + 1, 0⟩
  | .right => ⟨advances r s, keepsPointer r s - 1, 0⟩
  | .increment => ⟨advances r s, keepsPointer r s, keepsValue r s - 1⟩
  | .decrement => ⟨advances r s, keepsPointer r s, keepsValue r s + 1⟩
  | .read => ⟨advances r s, keepsPointer r s, 0⟩
  | .write => ⟨advances r s, keepsPointer r s, keepsValue r s⟩

def switchedEffect (i : Instruction) (r s : Register α) : Effect α :=
  (effect i r s).map (· * r.currentInstruction)

/-- The constraints between consecutive rows. The first three sum the effects of all instructions,
each selected by the current one; then the cycle counts up, and the last two make the inverse column
the inverse of the memory value, or zero with it. -/
def transition (r s : Register α) : List α :=
  let effects := Instruction.all.map fun i =>
    (switchedEffect i r s).map (i.selector r.currentInstruction * ·)
  [(effects.map (·.instructionPointer)).sum,
    (effects.map (·.memoryPointer)).sum,
    (effects.map (·.memoryValue)).sum,
    s.cycle - r.cycle - 1,
    r.memoryValue * valueIsZero r,
    r.memoryValueInverse * valueIsZero r]

def boundary (r : Register α) : List α :=
  [r.cycle, r.instructionPointer, r.memoryPointer, r.memoryValue, r.memoryValueInverse]

def instructionFactor (w : Weights α) (r : Register α) : α :=
  w.factor r.instructionPointer r.currentInstruction r.nextInstruction

def memoryFactor (w : Weights α) (r : Register α) : α :=
  w.factor r.cycle r.memoryPointer r.memoryValue

def carries (r : Register α) (factor product next : α) : α :=
  (product * factor - next) * r.currentInstruction
    + (product - next) * Instruction.zerofier r.currentInstruction

end Register

namespace ProcessorRow
variable {α : Type}

def ofColumns (column : Nat → α) : ProcessorRow α :=
  ⟨.ofColumns column, column 7, column 8⟩

variable [One α] [Add α] [Sub α] [Mul α] [NatCast α]

/-- The running products after a row are `instruction` and `memory`. Between rows these are the
products of the next row, and after the last row the terminals. -/
def productsAre (wi wm : Weights α) (r : ProcessorRow α) (instruction memory : α) : List α :=
  [r.register.carries (r.register.instructionFactor wi) r.instructionProduct instruction,
    r.register.carries (r.register.memoryFactor wm) r.memoryProduct memory]

end ProcessorRow

end TapeAir
