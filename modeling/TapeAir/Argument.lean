import TapeAir.Field.Sample
/-! # Parameters of the arguments between tables

The verifier's challenges, and the values with which the running products and evaluations start and
end. Each family is a record with named members; from outside it is read as a list of values that
must have the right length and lie in the extension field.
-/
namespace TapeAir

structure Challenges where
  /-- Weights of instruction pointer, current and next instruction. -/
  a : Cubic
  b : Cubic
  c : Cubic
  /-- Weights of cycle, memory pointer and memory value. -/
  d : Cubic
  e : Cubic
  f : Cubic
  /-- The point of the instruction permutation. -/
  alpha : Cubic
  /-- The point of the memory permutation. -/
  beta : Cubic
  /-- The point of the input evaluation. -/
  gamma : Cubic
  /-- The point of the output evaluation. -/
  delta : Cubic
  /-- The point of the program evaluation. -/
  eta : Cubic
deriving DecidableEq

structure Permutations where
  instruction : Cubic
  memory : Cubic
deriving DecidableEq

structure Evaluations where
  input : Cubic
  output : Cubic
deriving DecidableEq

inductive ArgumentFamily where
  | challenges
  | initials
  | terminals
  | evaluationTerminals
deriving DecidableEq, Repr

namespace ArgumentFamily

def name : ArgumentFamily → String
  | .challenges => "Challenges"
  | .initials => "Initials"
  | .terminals => "Terminals"
  | .evaluationTerminals => "EvaluationTerminals"

def members : ArgumentFamily → List String
  | .challenges => ["a", "b", "c", "d", "e", "f", "alpha", "beta", "gamma", "delta", "eta"]
  | .initials => ["processor_instruction_permutation", "processor_memory_permutation"]
  | .terminals => ["processor_instruction_permutation", "processor_memory_permutation"]
  | .evaluationTerminals => ["input_evaluation", "output_evaluation"]

def size (k : ArgumentFamily) : Nat := k.members.length

end ArgumentFamily

/-- A value offered as a parameter: an element of the extension field, or anything else, of which
only the name of its type is known. -/
inductive Offer where
  | element (x : Cubic)
  | other (typeName : String)
deriving DecidableEq

inductive ArgumentError where
  | count (family : ArgumentFamily) (given : Nat)
  | notExtension (family : ArgumentFamily) (member typeName : String)
deriving DecidableEq, Repr

def ArgumentError.message : ArgumentError → String
  | .count family given =>
    s!"{family.name} 는 {family.size}개 원소가 필요합니다: {given}개 주어짐"
  | .notExtension family member typeName =>
    s!"{family.name}.{member} 는 XField 여야 합니다: {typeName}"

namespace ArgumentFamily

def readMember (k : ArgumentFamily) : String × Offer → Except ArgumentError Cubic
  | (_, .element x) => .ok x
  | (member, .other typeName) => .error (.notExtension k member typeName)

/-- The values of all members: their number is checked before their types. -/
def readValues (k : ArgumentFamily) (values : List Offer) :
    Except ArgumentError (List Cubic) :=
  if values.length = k.size then (k.members.zip values).mapM k.readMember
  else .error (.count k values.length)

def sample (k : ArgumentFamily) (seed : String) : List Cubic := Cubic.sample seed k.size

end ArgumentFamily

def valueAt (values : List Cubic) (i : Nat) : Cubic := values[i]?.getD 0

def Challenges.ofList (l : List Cubic) : Challenges where
  a := valueAt l 0
  b := valueAt l 1
  c := valueAt l 2
  d := valueAt l 3
  e := valueAt l 4
  f := valueAt l 5
  alpha := valueAt l 6
  beta := valueAt l 7
  gamma := valueAt l 8
  delta := valueAt l 9
  eta := valueAt l 10

def Permutations.ofList (l : List Cubic) : Permutations := ⟨valueAt l 0, valueAt l 1⟩

def Evaluations.ofList (l : List Cubic) : Evaluations := ⟨valueAt l 0, valueAt l 1⟩

end TapeAir
