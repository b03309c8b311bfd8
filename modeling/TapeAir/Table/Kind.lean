import TapeAir.Argument
/-! # The five kinds of table

The kinds form a closed set. A kind fixes the columns of a table, the values that an extension
leaves behind, and the values that a verifier expects at the end of the argument columns.
-/
namespace TapeAir

inductive Kind where
  | processor
  | instruction
  | memory
  | input
  | output
deriving DecidableEq, Repr

namespace Kind

def all : List Kind := [.processor, .instruction, .memory, .input, .output]

def label : Kind → String
  | .processor => "processor"
  | .instruction => "instruction"
  | .memory => "memory"
  | .input => "input"
  | .output => "output"

def ofLabel? (s : String) : Option Kind := all.find? (·.label == s)

def title : Kind → String
  | .processor => "Processor table"
  | .instruction => "Instruction table"
  | .memory => "Memory table"
  | .input => "Input table"
  | .output => "Output table"

def typeName : Kind → String
  | .processor => "ProcessorTable"
  | .instruction => "InstructionTable"
  | .memory => "MemoryTable"
  | .input => "InputTable"
  | .output => "OutputTable"

def baseWidth : Kind → Nat
  | .processor => 7
  | .instruction => 3
  | .memory => 4
  | .input => 1
  | .output => 1

def fullWidth : Kind → Nat
  | .processor => 9
  | .instruction => 4
  | .memory => 5
  | .input => 2
  | .output => 2

def evaluationPoint (ch : Challenges) : Kind → Cubic
  | .input => ch.gamma
  | _ => ch.delta

/-- The terminals that an extension leaves behind: one for each argument column. -/
abbrev Summary : Kind → Type
  | .processor => Permutations
  | _ => Cubic

def emptySummary : (k : Kind) → k.Summary
  | .processor => ⟨0, 0⟩
  | .instruction => (0 : Cubic)
  | .memory => (0 : Cubic)
  | .input => (0 : Cubic)
  | .output => (0 : Cubic)

def summaryParts : (k : Kind) → k.Summary → List (String × Cubic)
  | .processor, s =>
    [("instruction_permutation_terminal", Permutations.instruction s),
      ("memory_permutation_terminal", Permutations.memory s)]
  | .instruction, s => [("permutation_terminal", s)]
  | .memory, s => [("permutation_terminal", s)]
  | .input, s => [("evaluation_terminal", s)]
  | .output, s => [("evaluation_terminal", s)]

abbrev Terminals : Kind → Type
  | .input => Evaluations
  | .output => Evaluations
  | _ => Permutations

def terminalFamily : Kind → ArgumentFamily
  | .input => .evaluationTerminals
  | .output => .evaluationTerminals
  | _ => .terminals

def terminalsOfList : (k : Kind) → List Cubic → k.Terminals
  | .processor => Permutations.ofList
  | .instruction => Permutations.ofList
  | .memory => Permutations.ofList
  | .input => Evaluations.ofList
  | .output => Evaluations.ofList

/-- The terminals that a table's own summary gives. A table with one permutation gives zero for the
other, and an evaluation stands for input and output alike. -/
def ownTerminals : (k : Kind) → k.Summary → k.Terminals
  | .processor, s => s
  | .instruction, t => (⟨t, 0⟩ : Permutations)
  | .memory, t => (⟨0, t⟩ : Permutations)
  | .input, t => (⟨t, t⟩ : Evaluations)
  | .output, t => (⟨t, t⟩ : Evaluations)

end Kind

end TapeAir
