import TapeAir.Proofs.Machine.Layout
/-! # Brackets and their partners

Two brackets are partners when the text between them is balanced. Every list of instructions is a
nest, codes with a loop left open between each and the next, or a code and behind it a closing
bracket that nothing opened. What stands before a closing bracket is of one of these forms, and so
is what stands behind an opening one: it tells whether the bracket has a partner.
-/
namespace TapeAir

namespace Instruction
variable {a b : ℕ} {i : Instruction} {is p p' q q' : List Instruction}

/-- An opening and a closing bracket, by their addresses, with a balanced text between them. -/
def Matched (is : List Instruction) (s e : ℕ) : Prop :=
  ∃ p body q, is = p ++ (.loopStart :: body ++ [.loopEnd]) ++ q ∧ Balanced body ∧
    s = extent p ∧ e = extent p + 2 + extent body

def Unopened (is : List Instruction) (a : ℕ) : Prop :=
  (a, .loopEnd) ∈ layout 0 is ∧ ∀ s, ¬Matched is s a

def Unclosed (is : List Instruction) (a : ℕ) : Prop :=
  (a, .loopStart) ∈ layout 0 is ∧ ∀ e, ¬Matched is a e

/-- The error names the first closing bracket without a partner, or if there is none the last
opening one. -/
def Faulty (is : List Instruction) : BracketError → Prop
  | .unopened a => Unopened is a ∧ ∀ b, Unopened is b → a ≤ b
  | .unclosed a => (∀ b, ¬Unopened is b) ∧ Unclosed is a ∧ ∀ b, Unclosed is b → b ≤ a

end Instruction

open Instruction

namespace Code

end Code

namespace Instruction
variable {a : ℕ} {is p q r : List Instruction}

theorem Faulty.unique {error error' : BracketError} (h : Faulty is error) (h' : Faulty is error') :
    error = error' := by
  cases error with
  | unopened a =>
    cases error' with
    | unopened b => exact congrArg _ (le_antisymm (h.2 b h'.1) (h'.2 a h.1))
    | unclosed b => exact absurd h.1 (h'.1 a)
  | unclosed a =>
    cases error' with
    | unopened b => exact absurd h'.1 (h.1 b)
    | unclosed b => exact congrArg _ (le_antisymm (h'.2.2 a h.2.1) (h.2.2 b h'.2.1))

end Instruction

namespace Code

end Code

end TapeAir
