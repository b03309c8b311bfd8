import TapeAir.Constraint.Check
import TapeAir.Proofs.Poly.Evaluation
/-! # From polynomials to values

The constraints are written once, over any type with the operations. A map that keeps the operations
carries the formulas of one type to those of the other; evaluation at a point is such a map, so a
constraint polynomial has at a row the value of its formula on the columns of that row.
-/
namespace TapeAir

/-- A map keeps the operations in which constraints are written. -/
structure Interprets {α β : Type} [Zero α] [One α] [Add α] [Sub α] [Mul α] [NatCast α]
    [Zero β] [One β] [Add β] [Sub β] [Mul β] [NatCast β] (φ : α → β) : Prop where
  zero : φ 0 = 0
  one : φ 1 = 1
  add : ∀ x y, φ (x + y) = φ x + φ y
  sub : ∀ x y, φ (x - y) = φ x - φ y
  mul : ∀ x y, φ (x * y) = φ x * φ y
  natCast : ∀ n : ℕ, φ n = n

section Maps
variable {α β : Type} [Zero α] [One α] [Add α] [Sub α] [Mul α] [NatCast α]
  [Zero β] [One β] [Add β] [Sub β] [Mul β] [NatCast β] {φ : α → β}

theorem Interprets.list_sum (h : Interprets φ) (xs : List α) : φ xs.sum = (xs.map φ).sum := by
  induction xs with
  | nil => exact h.zero
  | cons x xs ih => simp [h.add, ih]

namespace Instruction

theorem map_vanishing (h : Interprets φ) (is : List Instruction) (x : α) :
    φ (vanishing is x) = vanishing is (φ x) := by
  have hfold (acc : α) : φ (is.foldl (fun acc i => acc * (x - (i.code : α))) acc) =
      is.foldl (fun acc i => acc * (φ x - (i.code : β))) (φ acc) := by
    induction is generalizing acc with
    | nil => rfl
    | cons i is ih => simp only [List.foldl_cons, ih, h.mul, h.sub, h.natCast]
  rw [vanishing, hfold, h.one, vanishing]

theorem map_selector (h : Interprets φ) (i : Instruction) (x : α) :
    φ (i.selector x) = i.selector (φ x) := map_vanishing h _ x

end Instruction

namespace Register

theorem map_effect (h : Interprets φ) (i : Instruction) (r s : Register α) :
    (effect i r s).map φ = effect i (r.map φ) (s.map φ) := by
  cases i <;>
    simp only [effect, Effect.map, map, skips, jumps, advances, keepsPointer, keepsValue,
      valueIsZero, h.add, h.sub, h.mul, h.one, h.zero]

theorem map_switchedEffect (h : Interprets φ) (i : Instruction) (r s : Register α) :
    (switchedEffect i r s).map φ = switchedEffect i (r.map φ) (s.map φ) := by
  simp only [switchedEffect, ← map_effect h]
  simp only [Effect.map, h.mul, map]

theorem map_transition (h : Interprets φ) (r s : Register α) :
    (r.transition s).map φ = (r.map φ).transition (s.map φ) := by
  have hselected (i : Instruction) :
      ((switchedEffect i r s).map (i.selector r.currentInstruction * ·)).map φ =
        (switchedEffect i (r.map φ) (s.map φ)).map
          (i.selector (r.map φ).currentInstruction * ·) := by
    rw [← map_switchedEffect h]
    simp only [Effect.map, h.mul, Instruction.map_selector h, map]
  have hsum (column : ∀ {γ : Type}, Effect γ → γ)
      (hc : ∀ e : Effect α, φ (column e) = column (e.map φ)) :
      φ ((Instruction.all.map fun i =>
        column ((switchedEffect i r s).map (i.selector r.currentInstruction * ·))).sum) =
      (Instruction.all.map fun i => column ((switchedEffect i (r.map φ) (s.map φ)).map
        (i.selector (r.map φ).currentInstruction * ·))).sum := by
    simp only [h.list_sum, List.map_map, Function.comp_def, hc, hselected]
  simp only [transition, List.map_map, Function.comp_def, List.map_cons, List.map_nil]
  rw [hsum Effect.instructionPointer fun _ => rfl, hsum Effect.memoryPointer fun _ => rfl,
    hsum Effect.memoryValue fun _ => rfl]
  simp only [valueIsZero, map, h.sub, h.mul, h.one]

end Register

namespace Kind

theorem map_transitionFormulas (h : Interprets φ) (k : Kind) (r s : ℕ → α) :
    (k.transitionFormulas r s).map φ = k.transitionFormulas (φ ∘ r) (φ ∘ s) := by
  cases k with
  | processor => exact Register.map_transition h _ _
  | instruction =>
    simp [transitionFormulas, InstructionRow.transition, InstructionRow.ofColumns, h.sub, h.mul,
      h.one]
  | memory =>
    simp [transitionFormulas, MemoryRow.transition, MemoryRow.ofColumns, h.sub, h.mul, h.one]
  | input => rfl
  | output => rfl

end Kind

end Maps

theorem Kind.map_boundaryFormulas {α β : Type} (φ : α → β) (k : Kind) (r : ℕ → α) :
    (k.boundaryFormulas r).map φ = k.boundaryFormulas (φ ∘ r) := by
  cases k <;> rfl

section Evaluation
variable {F : Type} [CommRing F] [DecidableEq F] {n : ℕ}

theorem Poly.eval_interprets (point : Vector F n) :
    Interprets (fun p : Poly F n => p.eval point) where
  zero := eval_zero point
  one := eval_one point
  add := eval_add point
  sub := eval_sub point
  mul := eval_mul point
  natCast := eval_natCast point

def column (row : List F) (i : ℕ) : F := row[i]?.getD 0

theorem Poly.eval_X_eq_column {row : List F} (h : row.length = n) (i : ℕ) :
    (X i : Poly F n).eval ⟨row.toArray, h⟩ = column row i := by
  by_cases hi : i < n
  · rw [eval_X _ hi, column, List.getElem?_eq_getElem (h ▸ hi)]
    rfl
  · rw [X, if_neg hi, column, List.getElem?_eq_none (h ▸ Nat.le_of_not_lt hi)]
    rfl

end Evaluation

end TapeAir
