import TapeAir.Constraint.Compression
/-! # Instruction lookup

A row of the instruction table holds an address with the instruction there and the one after it. The
constraints let the address stay or count up and bind the instructions to it. A row that repeats the
address before it stands for one execution and enters the permutation argument; the column of
running products includes the row's own factor.
-/
namespace TapeAir

structure InstructionRow (α : Type) where
  address : α
  currentInstruction : α
  nextInstruction : α
deriving DecidableEq

namespace InstructionRow
variable {α : Type}

def toList (r : InstructionRow α) : List α :=
  [r.address, r.currentInstruction, r.nextInstruction]

def ofColumns (column : Nat → α) : InstructionRow α := ⟨column 0, column 1, column 2⟩

variable [One α] [Add α] [Sub α] [Mul α]

/-- The address stays or counts up. Where it counts up, the next instruction was announced; where it
stays, the instructions stay. -/
def transition (r s : InstructionRow α) : List α :=
  [(s.address - r.address - 1) * (s.address - r.address),
    (s.address - r.address) * (r.nextInstruction - s.currentInstruction),
    (s.address - r.address - 1) * (s.currentInstruction - r.currentInstruction),
    (s.address - r.address - 1) * (s.nextInstruction - r.nextInstruction)]

def boundary (r : InstructionRow α) : List α := [r.address]

def factor (w : Weights α) (r : InstructionRow α) : α :=
  w.factor r.address r.currentInstruction r.nextInstruction

def carries (w : Weights α) (r s : InstructionRow α) (product next : α) : α :=
  (product * s.factor w - next) * (r.address + 1 - s.address)
    + (product - next) * (s.address - r.address)

end InstructionRow

end TapeAir
