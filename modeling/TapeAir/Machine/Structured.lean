import TapeAir.Machine.Program
/-! # Structured programs

A source whose brackets are balanced is a tree of loops. The tree has a meaning of its own, without
addresses: a loop repeats its body while the cell under the pointer is not zero. The compiler and
the machine are judged against it.
-/
namespace TapeAir

inductive Action where
  | left
  | right
  | increment
  | decrement
  | read
  | write
deriving DecidableEq, Repr

def Action.instruction : Action → Instruction
  | .left => .left
  | .right => .right
  | .increment => .increment
  | .decrement => .decrement
  | .read => .read
  | .write => .write

inductive Code where
  | done
  | act (a : Action) (rest : Code)
  | loop (body rest : Code)
deriving DecidableEq, Repr

namespace Code

def instructions : Code → List Instruction
  | .done => []
  | .act a rest => a.instruction :: rest.instructions
  | .loop body rest =>
    .loopStart :: body.instructions ++ .loopEnd :: rest.instructions

def size : Code → Nat
  | .done => 0
  | .act _ rest => rest.size + 1
  | .loop body rest => body.size + rest.size + 4

/-- The cells of a code that starts at an address. An opening bracket jumps behind the operand of
the closing one, and a closing bracket to the body. -/
def cells (address : Nat) : Code → List Goldilocks
  | .done => []
  | .act a rest => (a.instruction.code : Goldilocks) :: rest.cells (address + 1)
  | .loop body rest =>
    let last := address + body.size + 4
    (Instruction.loopStart.code : Goldilocks) :: (last : Goldilocks) :: body.cells (address + 2)
      ++ (Instruction.loopEnd.code : Goldilocks) :: ((address + 2 : Nat) : Goldilocks)
        :: rest.cells last

theorem length_cells (c : Code) (address : Nat) : (c.cells address).length = c.size := by
  induction c generalizing address with
  | done => rfl
  | act a rest ih => simp [cells, size, ih]
  | loop body rest ihb ihr =>
    simp only [cells, size, List.cons_append, List.length_cons, List.length_append, ihb, ihr]
    omega

end Code

/-- What a structured program works on. The output is in reverse. -/
structure Memory where
  cells : Goldilocks → Goldilocks
  pointer : Goldilocks
  input : List Goldilocks
  output : List Goldilocks

namespace Memory

def start (input : List Goldilocks) : Memory := ⟨fun _ => 0, 0, input, []⟩

def value (m : Memory) : Goldilocks := m.cells m.pointer

def store (m : Memory) (v : Goldilocks) : Memory :=
  { m with cells := fun p => if p = m.pointer then v else m.cells p }

def act? (m : Memory) : Action → Option Memory
  | .left => some { m with pointer := m.pointer - 1 }
  | .right => some { m with pointer := m.pointer + 1 }
  | .increment => some (m.store (m.value + 1))
  | .decrement => some (m.store (m.value - 1))
  | .read =>
    match m.input with
    | [] => none
    | v :: rest => some { m.store v with input := rest }
  | .write => some { m with output := m.value :: m.output }

end Memory

/-- How a structured run ends: it finishes, or it reads when no input is left. -/
inductive Ending where
  | finished (m : Memory)
  | starved

/-- Running a code from a memory ends in the given way. A run that goes on for ever has no
ending. -/
inductive Code.Runs : Code → Memory → Ending → Prop where
  | done (m) : Code.Runs .done m (.finished m)
  | act {a rest m n e} : m.act? a = some n → Code.Runs rest n e → Code.Runs (.act a rest) m e
  | starve {a rest m} : m.act? a = none → Code.Runs (.act a rest) m .starved
  | leave {body rest m e} : m.value = 0 → Code.Runs rest m e → Code.Runs (.loop body rest) m e
  | again {body rest m n e} : m.value ≠ 0 → Code.Runs body m (.finished n) →
      Code.Runs (.loop body rest) n e → Code.Runs (.loop body rest) m e
  | starveInside {body rest m} : m.value ≠ 0 → Code.Runs body m .starved →
      Code.Runs (.loop body rest) m .starved

end TapeAir
