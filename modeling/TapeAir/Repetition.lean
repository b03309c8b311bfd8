/-! # Repetition

A sequence is repeated as often as an integer says, and not at all if the integer is negative. The
integer must be a signed word of 64 bits, also where there is nothing to repeat.
-/
namespace TapeAir.Repetition

def isWord (z : Int) : Bool := -9223372036854775808 ≤ z && z ≤ 9223372036854775807

/-- How often a list of a given length is repeated; an empty one is the same however often. -/
def times? (length : Nat) (z : Int) : Option Nat :=
  if isWord z then some (if length = 0 then 0 else z.toNat) else none

/-- How often a text of a given length is repeated: the length of the result must be a word, too. -/
def textTimes? (length : Nat) (z : Int) : Option Nat :=
  if isWord (length * z.toNat) then times? length z else none

end TapeAir.Repetition
