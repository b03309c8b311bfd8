/-! # Places counted from either end

An index below zero counts from the end of a list. A single place must exist; the ends of a range
are moved into the list.
-/
namespace TapeAir

def place? (length : Nat) (index : Int) : Option Nat :=
  let i := if index < 0 then index + length else index
  if 0 ≤ i ∧ i < length then some i.toNat else none

def bound (length : Nat) (index : Int) : Nat :=
  min length (if index < 0 then index + length else index).toNat

namespace Place
variable {α : Type}

def at? (l : List α) (index : Int) : Option α := do
  l[← place? l.length index]?

def replace? (l : List α) (index : Int) (a : α) : Option (List α) := do
  return l.set (← place? l.length index) a

def replaceCell? (rows : List (List α)) (row column : Int) (a : α) : Option (List (List α)) := do
  replace? rows row (← replace? (← at? rows row) column a)

def range (l : List α) (first last : Option Int) : List α :=
  let first := (first.map (bound l.length)).getD 0
  let last := (last.map (bound l.length)).getD l.length
  (l.take last).drop first

def withoutLast (l : List α) (n : Nat) : List α := l.take (l.length - n)

end Place

end TapeAir
