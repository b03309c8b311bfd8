import TapeAir.Machine.Instruction
/-! # The registers of one cycle

The record is used with field elements for the rows of a trace and with polynomials for the
variables of a constraint, so both speak of the same columns.
-/
namespace TapeAir

structure Register (α : Type) where
  cycle : α
  instructionPointer : α
  currentInstruction : α
  nextInstruction : α
  memoryPointer : α
  memoryValue : α
  /-- The inverse of the memory value, and zero where that is zero. -/
  memoryValueInverse : α
deriving DecidableEq

/-- The registers of every cycle of a run, in time order, and of the state after it. -/
abbrev Trace := List (Register Goldilocks)

namespace Register
variable {α β : Type}

def names : List String :=
  ["cycle", "instruction_pointer", "current_instruction", "next_instruction", "memory_pointer",
    "memory_value", "memory_value_inverse"]

def toList (r : Register α) : List α :=
  [r.cycle, r.instructionPointer, r.currentInstruction, r.nextInstruction, r.memoryPointer,
    r.memoryValue, r.memoryValueInverse]

def map (f : α → β) (r : Register α) : Register β where
  cycle := f r.cycle
  instructionPointer := f r.instructionPointer
  currentInstruction := f r.currentInstruction
  nextInstruction := f r.nextInstruction
  memoryPointer := f r.memoryPointer
  memoryValue := f r.memoryValue
  memoryValueInverse := f r.memoryValueInverse

def ofColumns (column : Nat → α) : Register α :=
  ⟨column 0, column 1, column 2, column 3, column 4, column 5, column 6⟩

theorem length_toList (r : Register α) : r.toList.length = 7 := rfl

theorem toList_injective {r s : Register α} (h : r.toList = s.toList) : r = s := by
  cases r
  cases s
  simp_all [toList]

def ofRow (row : List Goldilocks) : Register Goldilocks :=
  ofColumns fun i => row[i]?.getD 0

def ofInts (row : List Int) : Register Goldilocks := ofRow (row.map .ofInt)

inductive Comparand where
  | registers (r : Register Goldilocks)
  | row (cells : List Goldilocks)

/-- Registers equal registers with the same columns, and never a plain row. -/
def equals (r : Register Goldilocks) : Comparand → Bool
  | .registers s => r = s
  | .row _ => false

def executes (r : Register Goldilocks) (i : Instruction) : Bool :=
  r.currentInstruction = (i.code : Goldilocks)

def text (r : Register Goldilocks) : String :=
  let columns := (names.zip r.toList).map fun c => s!"{c.1}={c.2.text}"
  let body := ", ".intercalate columns
  s!"Register({body})"

end Register

def Trace.text (t : Trace) : String :=
  let body := ", ".intercalate (List.map Register.text t)
  s!"[{body}]"

end TapeAir
