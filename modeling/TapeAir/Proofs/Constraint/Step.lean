import Mathlib.Algebra.BigOperators.Group.List.Basic
import Mathlib.Tactic.LinearCombination
import TapeAir.Constraint.Step
import TapeAir.Proofs.Field.Prime
/-! # What the processor constraints say

Between a row with an instruction and the next one the constraints ask for one step of the machine:
the sum over all instructions keeps the summand of the current one alone. Between an idle row and
the next one they ask only that the cycle counts up. The inverse column is right in either case.
-/
namespace TapeAir

namespace Instruction

theorem code_lt_modulus (i : Instruction) : i.code < Goldilocks.modulus := by
  cases i <;> decide

theorem code_cast_injective {i j : Instruction}
    (h : (i.code : Goldilocks) = (j.code : Goldilocks)) : i = j :=
  code_injective (Goldilocks.natCast_inj_of_lt i.code_lt_modulus j.code_lt_modulus h)

theorem code_cast_ne_zero (i : Instruction) : (i.code : Goldilocks) ≠ 0 := by
  cases i <;> decide

section Vanishing
variable {F : Type} [CommRing F]

theorem vanishing_eq_prod (is : List Instruction) (x : F) :
    vanishing is x = (is.map fun i => x - (i.code : F)).prod := by
  have hfold (acc : F) : is.foldl (fun acc i => acc * (x - (i.code : F))) acc =
      acc * (is.map fun i => x - (i.code : F)).prod := by
    induction is generalizing acc with
    | nil => simp
    | cons i is ih => simp [ih, mul_assoc]
  rw [vanishing, hfold, one_mul]

variable [IsDomain F]

theorem vanishing_eq_zero_iff (is : List Instruction) (x : F) :
    vanishing is x = 0 ↔ ∃ i ∈ is, x = i.code := by
  rw [vanishing_eq_prod, List.prod_eq_zero_iff, List.mem_map]
  simp only [sub_eq_zero]

theorem zerofier_eq_zero_iff (x : F) : zerofier x = 0 ↔ ∃ i : Instruction, x = i.code := by
  rw [zerofier, vanishing_eq_zero_iff]
  simp only [mem_all, true_and]

theorem selector_eq_zero_iff (i : Instruction) (x : F) :
    i.selector x = 0 ↔ ∃ j : Instruction, j ≠ i ∧ x = j.code := by
  rw [selector, vanishing_eq_zero_iff]
  simp only [List.mem_filter, mem_all, true_and, decide_eq_true_eq]

end Vanishing

theorem selector_code_eq_zero_iff (i j : Instruction) :
    j.selector (i.code : Goldilocks) = 0 ↔ j ≠ i := by
  rw [selector_eq_zero_iff]
  constructor
  · rintro ⟨k, hk, he⟩ rfl
    exact hk (code_cast_injective he).symm
  · exact fun h => ⟨i, h.symm, rfl⟩

theorem sum_all_eq {f : Instruction → Goldilocks} (i : Instruction) (h : ∀ j, j ≠ i → f j = 0) :
    (all.map f).sum = f i := by
  rw [List.sum_map_eq_nsmul_single i f fun j hj _ => h j hj]
  have hcount : all.count i = 1 := by cases i <;> rfl
  rw [hcount, one_smul]

end Instruction

namespace Register

def target (i : Instruction) (r : Register Goldilocks) : Goldilocks :=
  match i with
  | .loopStart => if r.memoryValue = 0 then r.nextInstruction else r.instructionPointer + 2
  | .loopEnd => if r.memoryValue = 0 then r.instructionPointer + 2 else r.nextInstruction
  | _ => r.instructionPointer + 1

def moved (i : Instruction) (r : Register Goldilocks) : Goldilocks :=
  match i with
  | .left => r.memoryPointer - 1
  | .right => r.memoryPointer + 1
  | _ => r.memoryPointer

/-- The memory value after an instruction, where the row itself determines it. -/
def settled? (i : Instruction) (r : Register Goldilocks) : Option Goldilocks :=
  match i with
  | .increment => some (r.memoryValue + 1)
  | .decrement => some (r.memoryValue - 1)
  | .loopStart => some r.memoryValue
  | .loopEnd => some r.memoryValue
  | .write => some r.memoryValue
  | .left => none
  | .right => none
  | .read => none

structure Leads (i : Instruction) (r s : Register Goldilocks) : Prop where
  instructionPointer : s.instructionPointer = target i r
  memoryPointer : s.memoryPointer = moved i r
  memoryValue : ∀ v ∈ settled? i r, s.memoryValue = v

structure Ticks (r s : Register Goldilocks) : Prop where
  cycle : s.cycle = r.cycle + 1
  inverse : r.memoryValueInverse = r.memoryValue⁻¹

/-- The two inverse rules hold for the inverse, and for zero with zero. -/
theorem inverse_rules_iff (v w : Goldilocks) :
    v * (v * w - 1) = 0 ∧ w * (v * w - 1) = 0 ↔ w = v⁻¹ := by
  by_cases hv : v = 0
  · simp [hv]
  · constructor
    · rintro ⟨h, -⟩
      have hvw : v * w = 1 := sub_eq_zero.mp ((mul_eq_zero.mp h).resolve_left hv)
      exact eq_inv_of_mul_eq_one_right hvw
    · rintro rfl
      simp [mul_inv_cancel₀ hv]

section Moves
variable {r s : Register Goldilocks}

theorem skips_eq_zero_iff : skips r s = 0 ↔ s.instructionPointer = r.instructionPointer + 2 := by
  rw [skips, one_add_one_eq_two, sub_sub, sub_eq_zero]

theorem jumps_eq_zero_iff : jumps r s = 0 ↔ s.instructionPointer = r.nextInstruction := by
  rw [jumps, sub_eq_zero]

theorem advances_eq_zero_iff :
    advances r s = 0 ↔ s.instructionPointer = r.instructionPointer + 1 := by
  rw [advances, sub_sub, sub_eq_zero]

theorem keepsPointer_eq_zero_iff : keepsPointer r s = 0 ↔ s.memoryPointer = r.memoryPointer := by
  rw [keepsPointer, sub_eq_zero]

theorem keepsValue_eq_zero_iff : keepsValue r s = 0 ↔ s.memoryValue = r.memoryValue := by
  rw [keepsValue, sub_eq_zero]

/-- A bracket's two moves, one switched on by a zero cell and the other by a nonzero one. -/
theorem branch_eq_zero_iff (hinv : r.memoryValueInverse = r.memoryValue⁻¹) (x y : Goldilocks) :
    r.memoryValue * x + valueIsZero r * y = 0 ↔ if r.memoryValue = 0 then y = 0 else x = 0 := by
  rw [valueIsZero, hinv]
  by_cases hv : r.memoryValue = 0
  · simp [hv]
  · simp [hv]

/-- The effect of an instruction vanishes where the next row is the one it leads to. -/
theorem effect_eq_zero_iff (i : Instruction) (hinv : r.memoryValueInverse = r.memoryValue⁻¹) :
    (∀ x ∈ (effect i r s).toList, x = 0) ↔ Leads i r s := by
  have hleads : Leads i r s ↔ s.instructionPointer = target i r ∧ s.memoryPointer = moved i r ∧
      ∀ v ∈ settled? i r, s.memoryValue = v :=
    ⟨fun h => ⟨h.1, h.2, h.3⟩, fun h => ⟨h.1, h.2.1, h.2.2⟩⟩
  simp only [hleads, Effect.toList, List.forall_mem_cons, List.not_mem_nil, false_implies,
    implies_true, and_true]
  cases i with
  | loopStart =>
    simp only [effect, branch_eq_zero_iff hinv, skips_eq_zero_iff, jumps_eq_zero_iff,
      keepsPointer_eq_zero_iff, keepsValue_eq_zero_iff, target, moved, settled?,
      Option.mem_some_iff, forall_eq']
    split <;> rfl
  | loopEnd =>
    simp only [effect, add_comm (valueIsZero r * _), branch_eq_zero_iff hinv, skips_eq_zero_iff,
      jumps_eq_zero_iff, keepsPointer_eq_zero_iff, keepsValue_eq_zero_iff, target, moved, settled?,
      Option.mem_some_iff, forall_eq']
    split <;> rfl
  | left =>
    simp only [effect, advances_eq_zero_iff, target, moved, settled?, keepsPointer]
    simp [sub_add, sub_eq_zero]
  | right =>
    simp only [effect, advances_eq_zero_iff, target, moved, settled?, keepsPointer]
    simp [sub_sub, sub_eq_zero]
  | increment =>
    simp only [effect, advances_eq_zero_iff, keepsPointer_eq_zero_iff, target, moved, settled?,
      keepsValue]
    simp [sub_sub, sub_eq_zero]
  | decrement =>
    simp only [effect, advances_eq_zero_iff, keepsPointer_eq_zero_iff, target, moved, settled?,
      keepsValue]
    simp [sub_add, sub_eq_zero]
  | read =>
    simp [effect, advances_eq_zero_iff, keepsPointer_eq_zero_iff, target, moved, settled?]
  | write =>
    simp [effect, advances_eq_zero_iff, keepsPointer_eq_zero_iff, keepsValue_eq_zero_iff, target,
      moved, settled?]

end Moves

def selectedEffects (r s : Register Goldilocks) : Effect Goldilocks :=
  let effects := Instruction.all.map fun i =>
    (switchedEffect i r s).map (i.selector r.currentInstruction * ·)
  ⟨(effects.map (·.instructionPointer)).sum, (effects.map (·.memoryPointer)).sum,
    (effects.map (·.memoryValue)).sum⟩

theorem transition_eq (r s : Register Goldilocks) :
    r.transition s = (selectedEffects r s).toList ++
      [s.cycle - r.cycle - 1, r.memoryValue * valueIsZero r,
        r.memoryValueInverse * valueIsZero r] := rfl

theorem selectedEffects_of_code {i : Instruction} {r : Register Goldilocks}
    (hi : r.currentInstruction = i.code) (s : Register Goldilocks) :
    selectedEffects r s = (effect i r s).map fun x =>
      i.selector (i.code : Goldilocks) * (x * (i.code : Goldilocks)) := by
  have hother (column : Effect Goldilocks → Goldilocks) (hc : ∀ (g : Goldilocks → Goldilocks) e,
      column (e.map g) = g (column e)) :
      (Instruction.all.map fun j => column ((switchedEffect j r s).map
        (j.selector r.currentInstruction * ·))).sum =
      i.selector (i.code : Goldilocks) * (column (effect i r s) * (i.code : Goldilocks)) := by
    rw [Instruction.sum_all_eq i]
    · rw [hc, switchedEffect, hc, hi]
    · intro j hj
      rw [hc, hi, (Instruction.selector_code_eq_zero_iff i j).mpr hj, zero_mul]
  simp only [selectedEffects, List.map_map, Function.comp_def]
  rw [hother _ fun _ _ => rfl, hother _ fun _ _ => rfl, hother _ fun _ _ => rfl]
  rfl

theorem selectedEffects_of_idle {r : Register Goldilocks} (h : r.currentInstruction = 0)
    (s : Register Goldilocks) : selectedEffects r s = ⟨0, 0, 0⟩ := by
  simp [selectedEffects, switchedEffect, Effect.map, h]

theorem ticks_iff (r s : Register Goldilocks) :
    (∀ x ∈ [s.cycle - r.cycle - 1, r.memoryValue * valueIsZero r,
      r.memoryValueInverse * valueIsZero r], x = 0) ↔ Ticks r s := by
  simp only [List.forall_mem_cons, List.not_mem_nil, false_implies, implies_true, and_true,
    valueIsZero, inverse_rules_iff, sub_sub, sub_eq_zero]
  exact ⟨fun h => ⟨h.1, h.2⟩, fun h => ⟨h.1, h.2⟩⟩

/-- Between a row with an instruction and its successor the constraints ask for one step. -/
theorem transition_eq_zero_iff_of_code {i : Instruction} {r s : Register Goldilocks}
    (hi : r.currentInstruction = i.code) :
    (∀ x ∈ r.transition s, x = 0) ↔ Ticks r s ∧ Leads i r s := by
  have hsel : i.selector (i.code : Goldilocks) ≠ 0 := by
    simpa using (Instruction.selector_code_eq_zero_iff i i).not.mpr (by simp)
  have hselected : (∀ x ∈ (selectedEffects r s).toList, x = 0) ↔
      ∀ x ∈ (effect i r s).toList, x = 0 := by
    simp [selectedEffects_of_code hi, Effect.toList, Effect.map, hsel, i.code_cast_ne_zero]
  rw [transition_eq, List.forall_mem_append, ticks_iff, hselected, and_comm]
  exact and_congr_right fun ht => effect_eq_zero_iff i ht.inverse

/-- Between an idle row and its successor they ask for nothing but a tick. -/
theorem transition_eq_zero_iff_of_idle {r s : Register Goldilocks}
    (h : r.currentInstruction = 0) : (∀ x ∈ r.transition s, x = 0) ↔ Ticks r s := by
  rw [transition_eq, List.forall_mem_append, ticks_iff, selectedEffects_of_idle h]
  simp [Effect.toList]

end Register

end TapeAir
