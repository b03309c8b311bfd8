import TapeAir.Machine.Instruction
/-! # Selecting an instruction

A product of differences vanishes at the codes of a set of instructions. Without one instruction it
switches a constraint on for that instruction alone; over all of them it tells a code from zero.
-/
namespace TapeAir.Instruction
variable {α : Type} [One α] [Sub α] [Mul α] [NatCast α]

def vanishing (is : List Instruction) (x : α) : α :=
  is.foldl (fun acc i => acc * (x - (i.code : α))) 1

def selector (i : Instruction) (x : α) : α := vanishing (all.filter (· ≠ i)) x

def zerofier (x : α) : α := vanishing all x

end TapeAir.Instruction
