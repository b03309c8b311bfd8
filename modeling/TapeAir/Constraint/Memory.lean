import TapeAir.Constraint.Compression
/-! # Memory consistency

A row of the memory table is an access, or an interweaved row that fills the cycles between two
accesses of one pointer. The constraints order the rows by pointer and cycle and keep values through
interweaved rows. Only accesses enter the permutation argument; the column of running products shows
the product before the row's own factor.
-/
namespace TapeAir

structure MemoryRow (α : Type) where
  cycle : α
  memoryPointer : α
  memoryValue : α
  /-- One in a row that fills a gap, else zero. -/
  interweaved : α
deriving DecidableEq

namespace MemoryRow
variable {α : Type}

def toList (r : MemoryRow α) : List α :=
  [r.cycle, r.memoryPointer, r.memoryValue, r.interweaved]

def ofColumns (column : Nat → α) : MemoryRow α := ⟨column 0, column 1, column 2, column 3⟩

variable [One α] [Add α] [Sub α] [Mul α]

/-- The pointer stays or counts up. Where it stays, the cycle counts up. After an interweaved row
pointer and value stay. The flag of the second row is zero or one. A new pointer starts at zero. -/
def transition (r s : MemoryRow α) : List α :=
  [(s.memoryPointer - r.memoryPointer - 1) * (s.memoryPointer - r.memoryPointer),
    (s.memoryPointer - r.memoryPointer - 1) * (s.cycle - r.cycle - 1),
    r.interweaved * (s.memoryPointer - r.memoryPointer),
    r.interweaved * (r.memoryValue - s.memoryValue),
    s.interweaved * (s.interweaved - 1),
    (s.memoryPointer - r.memoryPointer) * s.memoryValue]

/-- The columns that are zero in the first row; its flag is left to the permutation argument. -/
def boundary (r : MemoryRow α) : List α := [r.cycle, r.memoryPointer, r.memoryValue]

def factor (w : Weights α) (r : MemoryRow α) : α :=
  w.factor r.cycle r.memoryPointer r.memoryValue

def carries (w : Weights α) (r : MemoryRow α) (product next : α) : α :=
  product * (r.factor w * (1 - r.interweaved) + r.interweaved) - next

def ends (w : Weights α) (r : MemoryRow α) (product terminal : α) : α :=
  (product * r.factor w - terminal) * (1 - r.interweaved) + (product - terminal) * r.interweaved

end MemoryRow

end TapeAir
