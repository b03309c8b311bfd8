import Mathlib.Data.Nat.Notation
import TapeAir.Machine.Structured
/-! # Balanced sources and their cells

A list of instructions is balanced when no bracket closes what is not open and none stays open.
Exactly then it is the text of a tree of loops, and of only one. The compiler turns the text into
the cells of that tree.
-/
namespace TapeAir

namespace Instruction

/-- The number of open loops after the instructions, if none is closed that is not open. -/
def depthAfter : List Instruction → ℕ → Option ℕ
  | [], d => some d
  | .loopStart :: is, d => depthAfter is (d + 1)
  | .loopEnd :: _, 0 => none
  | .loopEnd :: is, d + 1 => depthAfter is d
  | _ :: is, d => depthAfter is d

def Balanced (is : List Instruction) : Prop := depthAfter is 0 = some 0

instance (is : List Instruction) : Decidable (Balanced is) :=
  inferInstanceAs (Decidable (depthAfter is 0 = some 0))

def ofText (source : String) : List Instruction := source.toList.filterMap ofSymbol?

theorem depthAfter_action (a : Action) (is : List Instruction) (d : ℕ) :
    depthAfter (a.instruction :: is) d = depthAfter is d := by
  cases a <;> rfl

end Instruction

namespace Code

/-- A code behind which one loop after another is closed. -/
def closing : List Code → List Instruction
  | [] => []
  | c :: cs => .loopEnd :: c.instructions ++ closing cs

theorem depthAfter_instructions (c : Code) (is : List Instruction) (d : ℕ) :
    Instruction.depthAfter (c.instructions ++ is) d = Instruction.depthAfter is d := by
  induction c generalizing is d with
  | done => rfl
  | act a rest ih =>
    rw [instructions, List.cons_append, Instruction.depthAfter_action, ih]
  | loop body rest ihb ihr =>
    simp only [instructions, List.cons_append, List.append_assoc, Instruction.depthAfter, ihb, ihr]

theorem depthAfter_self (c : Code) (d : ℕ) : Instruction.depthAfter c.instructions d = some d := by
  have h := depthAfter_instructions c [] d
  rwa [List.append_nil] at h

/-- Where the instructions close `d` open loops, they are a code and `d` further ones, each behind
a closing bracket. -/
theorem exists_closing (is : List Instruction) (d : ℕ)
    (h : Instruction.depthAfter is d = some 0) :
    ∃ (c : Code) (cs : List Code), cs.length = d ∧ is = c.instructions ++ closing cs := by
  induction is generalizing d with
  | nil =>
    obtain rfl : d = 0 := Option.some.inj h
    exact ⟨.done, [], rfl, rfl⟩
  | cons i is ih =>
    have hact (a : Action) (hd : Instruction.depthAfter (a.instruction :: is) d = some 0) :
        ∃ (c : Code) (cs : List Code), cs.length = d ∧
          a.instruction :: is = c.instructions ++ closing cs := by
      obtain ⟨c, cs, hcs, rfl⟩ := ih d (Instruction.depthAfter_action a is d ▸ hd)
      exact ⟨.act a c, cs, hcs, rfl⟩
    cases i with
    | loopStart =>
      obtain ⟨c, cs, hcs, rfl⟩ := ih (d + 1) h
      obtain ⟨r, cs, rfl⟩ := List.exists_cons_of_length_eq_add_one hcs
      refine ⟨.loop c r, cs, Nat.succ.inj hcs, ?_⟩
      simp [instructions, closing]
    | loopEnd =>
      cases d with
      | zero => cases h
      | succ d =>
        obtain ⟨c, cs, rfl, rfl⟩ := ih d h
        exact ⟨.done, c :: cs, rfl, by simp [instructions, closing]⟩
    | left => exact hact .left h
    | right => exact hact .right h
    | increment => exact hact .increment h
    | decrement => exact hact .decrement h
    | read => exact hact .read h
    | write => exact hact .write h

theorem balanced_iff (is : List Instruction) :
    Instruction.Balanced is ↔ ∃ c : Code, c.instructions = is := by
  constructor
  · intro h
    obtain ⟨c, cs, hcs, rfl⟩ := exists_closing is 0 h
    rw [List.length_eq_zero_iff.mp hcs]
    exact ⟨c, by simp [closing]⟩
  · rintro ⟨c, rfl⟩
    exact depthAfter_self c 0

/-- A code is read from its instructions in one way, whatever closing bracket follows. -/
theorem instructions_append_inj {c c' : Code} {cs cs' : List Code}
    (h : c.instructions ++ closing cs = c'.instructions ++ closing cs') :
    c = c' ∧ closing cs = closing cs' := by
  have hclosing (a : Action) (is : List Instruction) (cs : List Code) :
      a.instruction :: is ≠ closing cs := by
    cases cs <;> cases a <;> simp [closing, Action.instruction]
  induction c generalizing c' cs cs' with
  | done =>
    cases c' with
    | done => exact ⟨rfl, h⟩
    | act a rest => exact absurd h.symm (hclosing a _ cs)
    | loop body rest => cases cs <;> simp [instructions, closing] at h
  | act a rest ih =>
    cases c' with
    | done => exact absurd h (hclosing a _ cs')
    | act a' rest' =>
      obtain ⟨ha, hrest⟩ := List.cons.inj h
      obtain ⟨rfl, hcs⟩ := ih hrest
      have : a = a' := by cases a <;> cases a' <;> first | rfl | cases ha
      exact ⟨this ▸ rfl, hcs⟩
    | loop body rest => cases a <;> simp [instructions, Action.instruction] at h
  | loop body rest ihb ihr =>
    cases c' with
    | done => cases cs' <;> simp [instructions, closing] at h
    | act a rest => cases a <;> simp [instructions, Action.instruction] at h
    | loop body' rest' =>
      have h' : body.instructions ++ closing (rest :: cs) =
          body'.instructions ++ closing (rest' :: cs') := by
        simpa [instructions, closing] using h
      obtain ⟨rfl, hrest⟩ := ihb h'
      obtain ⟨rfl, hcs⟩ := ihr (List.cons.inj hrest).2
      exact ⟨rfl, hcs⟩

theorem instructions_injective {c c' : Code} (h : c.instructions = c'.instructions) : c = c' := by
  have h' : c.instructions ++ closing [] = c'.instructions ++ closing [] := by rw [h]
  exact (instructions_append_inj h').1

end Code

namespace Program

theorem emit_action (d : Draft) (a : Action) :
    d.emit a.instruction = .ok { d with cells := d.cells.push a.instruction.code } := by
  cases a <;> rfl

theorem set_operand (xs : Program) (x y z v : Goldilocks) (body : List Goldilocks) :
    ((((xs.push x).push 0 ++ body.toArray).push y).push z).setIfInBounds (xs.size + 1) v =
      xs ++ (x :: v :: body ++ [y, z]).toArray := by
  apply Array.toList_inj.mp
  simp

/-- Emitting the instructions of a code appends its cells and leaves no new bracket waiting. -/
theorem emit_code (c : Code) (d : Draft) :
    c.instructions.foldlM Draft.emit d =
      .ok { d with cells := d.cells ++ (c.cells d.cells.size).toArray } := by
  induction c generalizing d with
  | done => simp [Code.instructions, Code.cells, pure, Except.pure]
  | act a rest ih =>
    rw [Code.instructions, List.foldlM_cons, emit_action]
    simp [bind, Except.bind, ih, Code.cells]
  | loop body rest ihb ihr =>
    have hstart : d.emit .loopStart =
        .ok ⟨(d.cells.push (Instruction.loopStart.code : Goldilocks)).push 0,
          d.cells.size :: d.waiting⟩ := rfl
    rw [Code.instructions, List.cons_append, List.foldlM_cons, hstart]
    simp only [bind, Except.bind]
    rw [List.foldlM_append, ihb]
    simp only [bind, Except.bind, List.foldlM_cons, Draft.emit, set_operand]
    rw [ihr]
    have hlast : d.cells.size + (body.size + 2 + 1 + 1) = d.cells.size + body.size + 4 := by omega
    simp [Code.cells, Code.length_cells, hlast]

theorem assemble_code (c : Code) : assemble c.instructions = .ok (c.cells 0).toArray := by
  rw [assemble, emit_code]
  simp [bind, Except.bind, pure, Except.pure]

end Program

end TapeAir
