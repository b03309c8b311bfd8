import TapeAir.Field.Goldilocks
/-! # The eight instructions

An instruction is written as one character, and its code is the number of that character.
-/
namespace TapeAir

inductive Instruction where
  /-- Leave the loop if the cell is zero. -/
  | loopStart
  /-- Repeat the loop unless the cell is zero. -/
  | loopEnd
  | left
  | right
  | increment
  | decrement
  | read
  | write
deriving DecidableEq, Repr

namespace Instruction

def all : List Instruction :=
  [.loopStart, .loopEnd, .left, .right, .increment, .decrement, .read, .write]

def symbol : Instruction → Char
  | .loopStart => '['
  | .loopEnd => ']'
  | .left => '<'
  | .right => '>'
  | .increment => '+'
  | .decrement => '-'
  | .read => ','
  | .write => '.'

def code (i : Instruction) : Nat := i.symbol.toNat

/-- The instruction that a character stands for; other characters are comments. -/
def ofSymbol? (c : Char) : Option Instruction := all.find? (·.symbol == c)

def ofText? (s : String) : Option Instruction := all.find? (·.symbol.toString == s)

def ofCode? (n : Nat) : Option Instruction := all.find? (·.code == n)

theorem mem_all (i : Instruction) : i ∈ all := by
  cases i <;> decide

theorem code_injective {i j : Instruction} : i.code = j.code → i = j := by
  cases i <;> cases j <;> decide

theorem ofCode?_code (i : Instruction) : ofCode? i.code = some i := by
  cases i <;> rfl

end Instruction

end TapeAir
