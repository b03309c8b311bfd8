import TapeAir.Field.Goldilocks
import Std.Data.HashMap
/-! # The tape

One cell for every pointer value, all of them zero at first.
-/
namespace TapeAir

/-- The cells that have been written, by the representative of their pointer. -/
structure Tape where
  cells : Std.HashMap Nat Goldilocks := ∅

namespace Tape

def read (t : Tape) (pointer : Goldilocks) : Goldilocks := t.cells[pointer.val]?.getD 0

def write (t : Tape) (pointer value : Goldilocks) : Tape :=
  ⟨t.cells.insert pointer.val value⟩

theorem read_empty (pointer : Goldilocks) : ({} : Tape).read pointer = 0 := by
  simp [read]

theorem read_write (t : Tape) (p q v : Goldilocks) :
    (t.write p v).read q = if p = q then v else t.read q := by
  simp only [read, write, Std.HashMap.getElem?_insert, Goldilocks.ext_iff, beq_iff_eq]
  split <;> rfl

end Tape

end TapeAir
