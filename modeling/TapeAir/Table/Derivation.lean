import TapeAir.Constraint.Lookup
import TapeAir.Constraint.Memory
import TapeAir.Machine.Program
import TapeAir.Table.Malformed
import TapeAir.Table.Row
/-! # Rows derived from a trace

The processor table holds the registers as they are. The instruction table joins the cells of the
program with the executed instructions and sorts them by address. The memory table sorts the
accesses by pointer and fills the gaps between them. The input and output tables list symbols.
-/
namespace TapeAir

/-- The row for every address of a program. The cell after the last one counts as zero. -/
def Program.instructionRows (program : Program) : List (InstructionRow Goldilocks) :=
  program.toList.zipIdx.map fun c => ⟨(c.2 : Goldilocks), c.1, program[c.2 + 1]?.getD 0⟩

namespace MemoryRow

def ofRegister (r : Register Goldilocks) : MemoryRow Goldilocks :=
  ⟨r.cycle, r.memoryPointer, r.memoryValue, 0⟩

def repeated (r : MemoryRow Goldilocks) (k : Nat) : MemoryRow Goldilocks :=
  { r with cycle := r.cycle + (k : Goldilocks), interweaved := 1 }

/-- The rows between two accesses: one for each cycle between them, if they share a pointer. -/
def gap (r s : MemoryRow Goldilocks) : List (MemoryRow Goldilocks) :=
  if s.memoryPointer = r.memoryPointer then
    (List.range (s.cycle - r.cycle - 1).val).map fun k => r.repeated (k + 1)
  else []

def interweave : List (MemoryRow Goldilocks) → List (MemoryRow Goldilocks)
  | r :: s :: rest => r :: gap r s ++ interweave (s :: rest)
  | rows => rows

end MemoryRow

namespace Trace

def executedRows (t : Trace) : List (InstructionRow Goldilocks) :=
  (t.filter (·.currentInstruction ≠ 0)).map fun r =>
    ⟨r.instructionPointer, r.currentInstruction, r.nextInstruction⟩

/-- The cells of the program and the executed instructions by address. Sorting is stable, so the row
of the program comes first at its address. -/
def instructionRows (t : Trace) (program : Program) : List (InstructionRow Goldilocks) :=
  (program.instructionRows ++ t.executedRows).mergeSort fun r s => r.address.val ≤ s.address.val

/-- The accesses of all rows but the last, by pointer, with their gaps filled. Sorting is stable, so
the accesses of a pointer stay in time order. What the last instruction writes is never seen, so the
last row is dropped. -/
def memoryRows (t : Trace) : List (MemoryRow Goldilocks) :=
  let accesses := (List.dropLast t).map MemoryRow.ofRegister
  MemoryRow.interweave
    (accesses.mergeSort fun r s => r.memoryPointer.val ≤ s.memoryPointer.val)

def writtenSymbols (t : Trace) : List Goldilocks :=
  (t.filter (·.executes .write)).map (·.memoryValue)

/-- The symbols that a trace reads. Each shows as the memory value of the row after the read; there
is no result if no row follows. -/
def readSymbols? : Trace → Option (List Goldilocks)
  | [] => some []
  | r :: rest =>
    if r.executes .read then do
      let next ← rest.head?
      return next.memoryValue :: (← readSymbols? rest)
    else readSymbols? rest

end Trace

namespace Kind

def derive (trace : Trace) (program : Program) : Kind → Except DerivationError (List Row)
  | .processor => .ok (trace.map Register.toList)
  | .instruction => do
    trace.requireUnpadded .instruction
    return (trace.instructionRows program).map InstructionRow.toList
  | .memory => do
    trace.requireUnpadded .memory
    return trace.memoryRows.map MemoryRow.toList
  | .input => do
    trace.requireUnpadded .input
    match trace.readSymbols? with
    | some symbols => return symbols.map ([·])
    | none => throw .unseenSymbol
  | .output => do
    trace.requireUnpadded .output
    return trace.writtenSymbols.map ([·])

end Kind

end TapeAir
