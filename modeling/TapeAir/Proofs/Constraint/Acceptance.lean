import Mathlib.Data.List.Chain
import TapeAir.Proofs.Constraint.Interpretation
import TapeAir.Proofs.Field.Prime
import TapeAir.Table.Row
/-! # Accepted matrices

A matrix is accepted when the checks report no violation: no pair of consecutive rows violates a
base transition constraint, and the first row no boundary constraint. On rows of the right width
this says that the formulas vanish on the columns.
-/
namespace TapeAir

section Places
variable {F : Type} [Zero F] [DecidableEq F]

theorem nonzeroPlaces_eq_nil_iff (values : List F) :
    nonzeroPlaces values = [] ↔ ∀ x ∈ values, x = 0 := by
  simp only [nonzeroPlaces, List.filterMap_eq_nil_iff, ite_eq_left_iff, reduceCtorEq, imp_false,
    not_not]
  constructor
  · intro h x hx
    obtain ⟨i, hi, rfl⟩ := List.getElem_of_mem hx
    exact h (values[i], i) (List.mem_zipIdx_iff_getElem?.mpr (by simp [hi]))
  · rintro h ⟨x, i⟩ hx
    exact h x (List.fst_mem_of_mem_zipIdx hx)

theorem violatedPairs_eq_nil_iff (values : List (List F)) :
    violatedPairs values = [] ↔ ∀ v ∈ values, nonzeroPlaces v = [] := by
  simp only [violatedPairs, List.flatMap_eq_nil_iff, List.map_eq_nil_iff]
  constructor
  · intro h v hv
    obtain ⟨i, hi, rfl⟩ := List.getElem_of_mem hv
    exact h (values[i], i) (List.mem_zipIdx_iff_getElem?.mpr (by simp [hi]))
  · rintro h ⟨v, i⟩ hv
    exact h v (List.fst_mem_of_mem_zipIdx hv)

end Places

section Checks
variable {F : Type} [Zero F] [Add F] [Mul F] [Pow F ℕ] {n : ℕ}

theorem Poly.evalList_eq {row : List F} (h : row.length = n) (p : Poly F n) :
    p.evalList row = .ok (p.eval ⟨row.toArray, h⟩) := by
  rw [evalList, dif_pos h]

theorem rowValues_eq {row : List F} (h : row.length = n) (cs : List (Poly F n)) :
    rowValues cs row = .ok (cs.map fun p => p.eval ⟨row.toArray, h⟩) := by
  induction cs with
  | nil => rfl
  | cons c cs ih =>
    rw [rowValues] at ih ⊢
    rw [List.mapM_cons, ih, Poly.evalList_eq h]
    rfl

variable [DecidableEq F]

/-- No violation in a row of the right width: all constraints vanish there. -/
theorem rowViolations_eq_nil_iff {row : List F} (h : row.length = n) (cs : List (Poly F n)) :
    rowViolations cs row = .ok [] ↔
      ∀ x ∈ cs.map (fun p => p.eval ⟨row.toArray, h⟩), x = 0 := by
  rw [rowViolations, rowValues_eq h, ← nonzeroPlaces_eq_nil_iff]
  simp [Except.map]

theorem pairViolations_eq_nil_iff (cs : List (Poly F n)) (rows : List (List F)) :
    pairViolations cs rows = .ok [] ↔
      rows.IsChain fun r s => rowViolations cs (r ++ s) = .ok [] := by
  have hmap (ps : List (List F × List F)) :
      (ps.mapM fun p => rowValues cs (p.1 ++ p.2)).map violatedPairs = .ok [] ↔
        ∀ p ∈ ps, rowViolations cs (p.1 ++ p.2) = .ok [] := by
    induction ps with
    | nil => simp [List.mapM_nil, pure, Except.pure, Except.map, violatedPairs]
    | cons p ps ih =>
      rw [List.mapM_cons, List.forall_mem_cons, ← ih, rowViolations]
      cases rowValues cs (p.1 ++ p.2) with
      | error e => simp [bind, Except.bind, Except.map]
      | ok v =>
        cases ps.mapM fun p => rowValues cs (p.1 ++ p.2) with
        | error e => simp [bind, Except.bind, Except.map]
        | ok vs =>
          simp [bind, Except.bind, pure, Except.pure, Except.map, violatedPairs_eq_nil_iff]
  rw [pairViolations, pairValues, hmap]
  clear hmap
  induction rows with
  | nil => simp
  | cons r rows ih =>
    cases rows with
    | nil => simp
    | cons s rows =>
      refine Iff.trans ?_ ((and_congr_right fun _ => ih).trans List.isChain_cons_cons.symm)
      simp

end Checks

theorem exists_row_of_le {α : Type} {rows : List α} {i j : ℕ} {s : α} (hij : i ≤ j)
    (hs : rows[j]? = some s) : ∃ r, rows[i]? = some r := by
  have hj := (List.getElem?_eq_some_iff.mp hs).1
  exact ⟨rows[i], List.getElem?_eq_getElem (by omega)⟩

namespace Kind

/-- At a pair of rows the base transition polynomials have the values of their formulas. -/
theorem eval_baseTransition (k : Kind) {row : Row} (h : row.length = 2 * k.baseWidth) :
    k.baseTransition.map (fun p => p.eval ⟨row.toArray, h⟩) =
      k.transitionFormulas (column row) fun i => column row (k.baseWidth + i) := by
  rw [baseTransition, map_transitionFormulas (Poly.eval_interprets _)]
  congr 1 <;> funext i <;> exact Poly.eval_X_eq_column h _

theorem eval_baseBoundary (k : Kind) {row : Row} (h : row.length = k.baseWidth) :
    k.baseBoundary.map (fun p => p.eval ⟨row.toArray, h⟩) = k.boundaryFormulas (column row) := by
  rw [baseBoundary, map_boundaryFormulas]
  congr 1
  funext i
  exact Poly.eval_X_eq_column h i

/-- A nonempty matrix without violations of the base constraints. -/
structure Accepts (k : Kind) (rows : List Row) : Prop where
  transition : pairViolations k.baseTransition rows = .ok []
  boundary : ∃ row ∈ rows.head?, rowViolations k.baseBoundary row = .ok []

/-- A type of rows for a kind of table: their cells, and the formulas of the base constraints in
terms of their fields. -/
structure Layout (k : Kind) (ρ : Type) where
  cells : ρ → Row
  transition : ρ → ρ → List Goldilocks
  boundary : ρ → List Goldilocks
  length_cells : ∀ r, (cells r).length = k.baseWidth
  transition_eq : ∀ r s, k.transitionFormulas (column (cells r ++ cells s))
    (fun i => column (cells r ++ cells s) (k.baseWidth + i)) = transition r s
  boundary_eq : ∀ r, k.boundaryFormulas (column (cells r)) = boundary r

namespace Layout
variable {k : Kind} {ρ : Type} (l : k.Layout ρ)

theorem rowViolations_iff (r : ρ) :
    rowViolations k.baseBoundary (l.cells r) = .ok [] ↔ ∀ x ∈ l.boundary r, x = 0 := by
  rw [rowViolations_eq_nil_iff (l.length_cells r), eval_baseBoundary, l.boundary_eq]

theorem length_pair (r s : ρ) : (l.cells r ++ l.cells s).length = 2 * k.baseWidth := by
  rw [List.length_append, l.length_cells, l.length_cells, two_mul]

theorem evalList_iff (r s : ρ) :
    (∀ c ∈ k.baseTransition, c.evalList (l.cells r ++ l.cells s) = .ok 0) ↔
      ∀ x ∈ l.transition r s, x = 0 := by
  simp only [Poly.evalList_eq (l.length_pair r s), Except.ok.injEq]
  rw [← List.forall_mem_map (f := fun c : Poly Goldilocks (2 * k.baseWidth) =>
    c.eval ⟨_, l.length_pair r s⟩) (P := (· = 0)), eval_baseTransition, l.transition_eq]

theorem pairViolations_iff (rows : List ρ) :
    pairViolations k.baseTransition (rows.map l.cells) = .ok [] ↔
      rows.IsChain fun r s => ∀ x ∈ l.transition r s, x = 0 := by
  have hpair (r s : ρ) : rowViolations k.baseTransition (l.cells r ++ l.cells s) = .ok [] ↔
      ∀ x ∈ l.transition r s, x = 0 := by
    rw [rowViolations_eq_nil_iff (l.length_pair r s), eval_baseTransition, l.transition_eq]
  rw [pairViolations_eq_nil_iff, List.isChain_map]
  simp only [hpair]

theorem accepts_iff (rows : List ρ) :
    k.Accepts (rows.map l.cells) ↔
      (rows.IsChain fun r s => ∀ x ∈ l.transition r s, x = 0) ∧
        ∃ r ∈ rows.head?, ∀ x ∈ l.boundary r, x = 0 := by
  have hhead : (∃ row ∈ (rows.map l.cells).head?, rowViolations k.baseBoundary row = .ok []) ↔
      ∃ r ∈ rows.head?, ∀ x ∈ l.boundary r, x = 0 := by
    simp [List.head?_map, l.rowViolations_iff]
  rw [← l.pairViolations_iff, ← hhead]
  exact ⟨fun h => ⟨h.transition, h.boundary⟩, fun h => ⟨h.1, h.2⟩⟩

theorem boundary_of_accepts {rows : List ρ} (h : k.Accepts (rows.map l.cells)) {r : ρ}
    (hr : rows[0]? = some r) : ∀ x ∈ l.boundary r, x = 0 := by
  obtain ⟨-, q, hq, hstart⟩ := (l.accepts_iff rows).mp h
  rw [Option.mem_def, List.head?_eq_getElem?, hr] at hq
  exact Option.some.inj hq ▸ hstart

theorem transition_of_accepts {rows : List ρ} (h : k.Accepts (rows.map l.cells)) {i : ℕ}
    {r s : ρ} (hr : rows[i]? = some r) (hs : rows[i + 1]? = some s) :
    ∀ x ∈ l.transition r s, x = 0 := by
  obtain ⟨hi, rfl⟩ := List.getElem?_eq_some_iff.mp hs
  obtain ⟨_, rfl⟩ := List.getElem?_eq_some_iff.mp hr
  exact List.isChain_iff_getElem.mp ((l.accepts_iff rows).mp h).1 i hi

end Layout

end Kind

def Register.layout : Kind.processor.Layout (Register Goldilocks) where
  cells := toList
  transition := transition
  boundary := boundary
  length_cells := length_toList
  transition_eq _ _ := rfl
  boundary_eq _ := rfl

def InstructionRow.layout : Kind.instruction.Layout (InstructionRow Goldilocks) where
  cells := toList
  transition := transition
  boundary := boundary
  length_cells _ := rfl
  transition_eq _ _ := rfl
  boundary_eq _ := rfl

def MemoryRow.layout : Kind.memory.Layout (MemoryRow Goldilocks) where
  cells := toList
  transition := transition
  boundary := boundary
  length_cells _ := rfl
  transition_eq _ _ := rfl
  boundary_eq _ := rfl

end TapeAir
