import TapeAir.Field.RootOfUnity
import TapeAir.Table.Kind
import TapeAir.Table.Row
/-! # Padding

A matrix grows to the next power of two by rows that follow from its last one and that no argument
takes in. No rule reads a row when no row is missing.
-/
namespace TapeAir

namespace Kind

/-- The `k`-th row after the last one. Processor rows go on without an instruction, instruction rows
with ever new addresses, memory rows as interweaved ones and symbols with zero. -/
def fill? : Kind → Row → Nat → Option Row
  | .processor, cycle :: ip :: _ :: _ :: mp :: mv :: mvi :: _, k =>
    some [cycle + (k : Goldilocks), ip, 0, 0, mp, mv, mvi]
  | .instruction, address :: _, k => some [address + (k : Goldilocks), 0, 0]
  | .memory, cycle :: mp :: mv :: _ :: rest, k =>
    some ((cycle + (k : Goldilocks)) :: mp :: mv :: 1 :: rest)
  | .input, _, _ => some [0]
  | .output, _, _ => some [0]
  | _, _, _ => none

def mayBeEmpty : Kind → Bool
  | .input => true
  | .output => true
  | _ => false

def padding? (k : Kind) (rows : List Row) : Option (List Row) :=
  (List.range (nextPowerOfTwo rows.length - rows.length)).mapM fun j =>
    k.fill? (rows.getLast?.getD []) (j + 1)

end Kind

end TapeAir
