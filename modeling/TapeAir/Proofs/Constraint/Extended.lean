import TapeAir.Proofs.Constraint.Acceptance
import TapeAir.Proofs.Field.Extension
import TapeAir.Proofs.Poly.Mapping
/-! # Constraints at extended rows

An extended row shows a row of the base, lifted, and behind it the argument columns. The constraints
of the extension find the base columns where the base constraints have them. So at extended rows
their values are first the lifted values of the base constraints, whatever the argument columns
hold, and then the values of the argument formulas.
-/
namespace TapeAir

theorem Cubic.lift_interprets : Interprets Cubic.lift where
  zero := rfl
  one := rfl
  add := map_add Cubic.liftHom
  sub := map_sub Cubic.liftHom
  mul := map_mul Cubic.liftHom
  natCast _ := rfl

theorem Cubic.liftHom_injective : Function.Injective Cubic.liftHom := fun _ _ => Cubic.lift_injective

theorem Cubic.lift_eq_zero_iff (a : Goldilocks) : Cubic.lift a = 0 ↔ a = 0 :=
  ⟨fun h => Cubic.lift_injective h, fun h => h ▸ rfl⟩

theorem Poly.map_interprets {F G : Type} [CommRing F] [CommRing G] [DecidableEq F] [DecidableEq G]
    {n : ℕ} {f : F →+* G} (hf : Function.Injective f) :
    Interprets fun p : Poly F n => p.map f where
  zero := rfl
  one := (Poly.map_const hf 1).trans (congrArg Poly.const (map_one f))
  add := Poly.map_add hf
  sub := Poly.map_sub hf
  mul := Poly.map_mul hf
  natCast k := (Poly.map_const hf k).trans (congrArg Poly.const (map_natCast f k))

section Columns
variable {F : Type} [CommRing F] {l m : List F}

theorem column_append_left {i : ℕ} (h : i < l.length) : column (l ++ m) i = column l i := by
  rw [column, column, List.getElem?_append_left h]

theorem column_append_right {w : ℕ} (h : l.length = w) (i : ℕ) :
    column (l ++ m) (w + i) = column m i := by
  rw [column, column, List.getElem?_append_right (by omega), h, Nat.add_sub_cancel_left]

theorem column_lift (row : Row) (i : ℕ) : column row.lift i = .lift (column row i) := by
  rw [column, column, Row.lift, List.getElem?_map]
  cases row[i]? <;> rfl

end Columns

theorem rowViolations_eq_ok_nil_iff {F : Type} [Zero F] [Add F] [Mul F] [Pow F ℕ] [DecidableEq F]
    {n : ℕ} {cs : List (Poly F n)} {row values : List F} (h : rowValues cs row = .ok values) :
    rowViolations cs row = .ok [] ↔ ∀ x ∈ values, x = 0 := by
  rw [rowViolations, h, ← nonzeroPlaces_eq_nil_iff]
  simp [Except.map]

theorem Register.ofColumns_congr {α : Type} {c c' : ℕ → α} (h : ∀ i < 7, c i = c' i) :
    Register.ofColumns c = Register.ofColumns c' := by
  simp [ofColumns, h]

theorem InstructionRow.ofColumns_congr {α : Type} {c c' : ℕ → α} (h : ∀ i < 3, c i = c' i) :
    InstructionRow.ofColumns c = InstructionRow.ofColumns c' := by
  simp [ofColumns, h]

theorem MemoryRow.ofColumns_congr {α : Type} {c c' : ℕ → α} (h : ∀ i < 4, c i = c' i) :
    MemoryRow.ofColumns c = MemoryRow.ofColumns c' := by
  simp [ofColumns, h]

namespace Kind

section Formulas
variable {α β : Type} [Zero α] [One α] [Add α] [Sub α] [Mul α] [NatCast α]
  [Zero β] [One β] [Add β] [Sub β] [Mul β] [NatCast β] {φ : α → β}

/-- The formulas of the base read the columns of the base and no others. -/
theorem transitionFormulas_congr (k : Kind) {r r' s s' : ℕ → α}
    (hr : ∀ i < k.baseWidth, r i = r' i) (hs : ∀ i < k.baseWidth, s i = s' i) :
    k.transitionFormulas r s = k.transitionFormulas r' s' := by
  cases k with
  | processor =>
    simp only [transitionFormulas, Register.ofColumns_congr hr, Register.ofColumns_congr hs]
  | instruction =>
    simp only [transitionFormulas, InstructionRow.ofColumns_congr hr,
      InstructionRow.ofColumns_congr hs]
  | memory =>
    simp only [transitionFormulas, MemoryRow.ofColumns_congr hr, MemoryRow.ofColumns_congr hs]
  | input => rfl
  | output => rfl

theorem boundaryFormulas_congr {α : Type} (k : Kind) {r r' : ℕ → α}
    (hr : ∀ i < k.baseWidth, r i = r' i) : k.boundaryFormulas r = k.boundaryFormulas r' := by
  cases k with
  | processor => simp only [boundaryFormulas, Register.ofColumns_congr hr]
  | instruction => simp only [boundaryFormulas, InstructionRow.ofColumns_congr hr]
  | memory => simp only [boundaryFormulas, MemoryRow.ofColumns_congr hr]
  | input => rfl
  | output => rfl

theorem map_argumentTransition (h : Interprets φ) (constant : Cubic → α) (ch : Challenges)
    (k : Kind) (r s : ℕ → α) :
    (argumentTransition constant ch k r s).map φ =
      argumentTransition (φ ∘ constant) ch k (φ ∘ r) (φ ∘ s) := by
  cases k <;>
    simp [argumentTransition, ProcessorRow.productsAre, ProcessorRow.ofColumns, Register.carries,
      Register.instructionFactor, Register.memoryFactor, Register.ofColumns,
      InstructionRow.carries, InstructionRow.factor, InstructionRow.ofColumns, MemoryRow.carries,
      MemoryRow.factor, MemoryRow.ofColumns, SymbolRow.transition, SymbolRow.ofColumns,
      Weights.factor, Weights.map, Instruction.zerofier, Instruction.map_vanishing h, h.add, h.sub,
      h.mul, h.one]

theorem map_argumentBoundary (h : Interprets φ) (k : Kind) (r : ℕ → α) :
    (k.argumentBoundary r).map φ = k.argumentBoundary (φ ∘ r) := by
  cases k <;> simp [argumentBoundary, SymbolRow.boundary, SymbolRow.ofColumns, h.sub]

theorem map_argumentTerminal (h : Interprets φ) (constant : Cubic → α) (ch : Challenges)
    (padding : ℕ) (k : Kind) (r : ℕ → α) (t : k.Terminals) :
    (argumentTerminal constant ch padding r k t).map φ =
      argumentTerminal (φ ∘ constant) ch padding (φ ∘ r) k t := by
  cases k <;>
    simp [argumentTerminal, ProcessorRow.productsAre, ProcessorRow.ofColumns, Register.carries,
      Register.instructionFactor, Register.memoryFactor, Register.ofColumns, MemoryRow.ends,
      MemoryRow.factor, MemoryRow.ofColumns, SymbolRow.ends, SymbolRow.ofColumns, Weights.factor,
      Weights.map, Instruction.zerofier, Instruction.map_vanishing h, h.add, h.sub, h.mul, h.one]

end Formulas

section Evaluation
variable (k : Kind) (ch : Challenges)

/-- The lifted base constraints are the same formulas in the variables of the extension. -/
theorem map_lift_transitionFormulas (n offset : ℕ) :
    (k.transitionFormulas .X fun j => .X (offset + j) : List (Poly Goldilocks n)).map
        (Poly.map Cubic.lift) =
      k.transitionFormulas .X fun j => .X (offset + j) := by
  have hlift : Interprets (Poly.map Cubic.lift : Poly Goldilocks n → Poly Cubic n) :=
    Poly.map_interprets Cubic.liftHom_injective
  have hX : (Poly.map Cubic.lift : Poly Goldilocks n → Poly Cubic n) ∘ .X = .X :=
    funext (Poly.map_X Cubic.liftHom_injective)
  have hnext : (Poly.map Cubic.lift : Poly Goldilocks n → Poly Cubic n) ∘
      (fun j => .X (offset + j)) = fun j => .X (offset + j) :=
    funext fun j => Poly.map_X Cubic.liftHom_injective _
  rw [map_transitionFormulas hlift, hX, hnext]

theorem eval_transition {row : ExtendedRow} (h : row.length = 2 * k.fullWidth) :
    (k.transition ch).map (fun p => p.eval ⟨row.toArray, h⟩) =
      k.transitionFormulas (column row) (fun i => column row (k.fullWidth + i)) ++
        argumentTransition id ch k (column row) fun i => column row (k.fullWidth + i) := by
  have hX : (fun p : Poly Cubic _ => p.eval ⟨row.toArray, h⟩) ∘ .X = column row :=
    funext (Poly.eval_X_eq_column h)
  have hnext : (fun p : Poly Cubic _ => p.eval ⟨row.toArray, h⟩) ∘
      (fun j => .X (k.fullWidth + j)) = fun i => column row (k.fullWidth + i) :=
    funext fun i => Poly.eval_X_eq_column h _
  have hconst : (fun p : Poly Cubic _ => p.eval ⟨row.toArray, h⟩) ∘ .const = id :=
    funext (Poly.eval_const _)
  rw [transition, List.map_append, map_lift_transitionFormulas,
    map_transitionFormulas (Poly.eval_interprets _), map_argumentTransition (Poly.eval_interprets _),
    hX, hnext, hconst]

theorem eval_boundary {row : ExtendedRow} (h : row.length = k.fullWidth) :
    k.boundary.map (fun p => p.eval ⟨row.toArray, h⟩) =
      k.boundaryFormulas (column row) ++ k.argumentBoundary (column row) := by
  have hX : (fun p : Poly Cubic _ => p.eval ⟨row.toArray, h⟩) ∘ .X = column row :=
    funext (Poly.eval_X_eq_column h)
  rw [boundary, List.map_append, map_boundaryFormulas,
    map_argumentBoundary (Poly.eval_interprets _), hX]

theorem eval_terminal (padding : ℕ) (t : k.Terminals) {row : ExtendedRow}
    (h : row.length = k.fullWidth) :
    (k.terminal ch padding t).map (fun p => p.eval ⟨row.toArray, h⟩) =
      argumentTerminal id ch padding (column row) k t := by
  have hX : (fun p : Poly Cubic _ => p.eval ⟨row.toArray, h⟩) ∘ .X = column row :=
    funext (Poly.eval_X_eq_column h)
  have hconst : (fun p : Poly Cubic _ => p.eval ⟨row.toArray, h⟩) ∘ .const = id :=
    funext (Poly.eval_const _)
  rw [terminal, map_argumentTerminal (Poly.eval_interprets _), hX, hconst]

end Evaluation

structure FullRow (k : Kind) where
  base : Row
  columns : ExtendedRow
  length_base : base.length = k.baseWidth
  length_columns : k.baseWidth + columns.length = k.fullWidth

namespace FullRow
variable {k : Kind}

def cells (r : k.FullRow) : ExtendedRow := r.base.lift ++ r.columns

theorem length_cells (r : k.FullRow) : r.cells.length = k.fullWidth := by
  rw [cells, List.length_append, Row.lift, List.length_map, r.length_base, r.length_columns]

theorem length_cells_append (r s : k.FullRow) : (r.cells ++ s.cells).length = 2 * k.fullWidth := by
  rw [List.length_append, r.length_cells, s.length_cells, two_mul]

theorem length_base_append (r s : k.FullRow) : (r.base ++ s.base).length = 2 * k.baseWidth := by
  rw [List.length_append, r.length_base, s.length_base, two_mul]

theorem column_cells (r : k.FullRow) {i : ℕ} (h : i < k.baseWidth) :
    column r.cells i = .lift (column r.base i) := by
  have hi : i < r.base.lift.length := by rwa [Row.lift, List.length_map, r.length_base]
  rw [cells, column_append_left hi, column_lift]

theorem column_cells_append (r s : k.FullRow) {i : ℕ} (h : i < k.baseWidth) :
    column (r.cells ++ s.cells) i = .lift (column r.base i) := by
  have hi : i < r.cells.length := by
    have := r.length_columns
    rw [r.length_cells]
    omega
  rw [column_append_left hi, r.column_cells h]

theorem rowValues_baseTransition (r s : k.FullRow) :
    rowValues k.baseTransition (r.base ++ s.base) =
      .ok (k.transitionFormulas (column r.base) (column s.base)) := by
  rw [rowValues_eq (r.length_base_append s), eval_baseTransition]
  refine congrArg _ (k.transitionFormulas_congr ?_ ?_)
  · intro i hi
    exact column_append_left (r.length_base.symm ▸ hi)
  · intro i _
    exact column_append_right r.length_base i

theorem rowValues_transition (ch : Challenges) (r s : k.FullRow) :
    rowValues (k.transition ch) (r.cells ++ s.cells) =
      .ok ((k.transitionFormulas (column r.base) (column s.base)).map Cubic.lift ++
        argumentTransition id ch k (column (r.cells ++ s.cells)) (column s.cells)) := by
  have hnext : (fun i => column (r.cells ++ s.cells) (k.fullWidth + i)) = column s.cells :=
    funext (column_append_right r.length_cells)
  rw [rowValues_eq (r.length_cells_append s), eval_transition, hnext,
    map_transitionFormulas Cubic.lift_interprets]
  refine congrArg _ (congrArg (· ++ _) (k.transitionFormulas_congr ?_ ?_))
  · intro i hi
    exact r.column_cells_append s hi
  · intro i hi
    exact s.column_cells hi

theorem rowValues_baseBoundary (r : k.FullRow) :
    rowValues k.baseBoundary r.base = .ok (k.boundaryFormulas (column r.base)) := by
  rw [rowValues_eq r.length_base, eval_baseBoundary]

theorem rowValues_boundary (r : k.FullRow) :
    rowValues k.boundary r.cells =
      .ok ((k.boundaryFormulas (column r.base)).map Cubic.lift ++
        k.argumentBoundary (column r.cells)) := by
  rw [rowValues_eq r.length_cells, eval_boundary, map_boundaryFormulas]
  refine congrArg _ (congrArg (· ++ _) (k.boundaryFormulas_congr ?_))
  intro i hi
  exact r.column_cells hi

theorem rowValues_terminal (ch : Challenges) (padding : ℕ) (t : k.Terminals) (r : k.FullRow) :
    rowValues (k.terminal ch padding t) r.cells =
      .ok (argumentTerminal id ch padding (column r.cells) k t) := by
  rw [rowValues_eq r.length_cells, eval_terminal]

theorem pairViolations_iff (ch : Challenges) (rows : List k.FullRow) :
    pairViolations (k.transition ch) (rows.map cells) = .ok [] ↔ rows.IsChain fun r s =>
      (∀ x ∈ k.transitionFormulas (column r.base) (column s.base), x = 0) ∧
        ∀ x ∈ argumentTransition id ch k (column (r.cells ++ s.cells)) (column s.cells), x = 0 := by
  rw [pairViolations_eq_nil_iff, List.isChain_map]
  refine List.IsChain.iff fun r s => ?_
  rw [rowViolations_eq_ok_nil_iff (r.rowValues_transition ch s), List.forall_mem_append,
    List.forall_mem_map]
  simp only [Cubic.lift_eq_zero_iff]

theorem rowViolations_terminal_iff (ch : Challenges) (padding : ℕ) (t : k.Terminals)
    (r : k.FullRow) :
    rowViolations (k.terminal ch padding t) r.cells = .ok [] ↔
      ∀ x ∈ argumentTerminal id ch padding (column r.cells) k t, x = 0 :=
  rowViolations_eq_ok_nil_iff (r.rowValues_terminal ch padding t)

end FullRow

end Kind

end TapeAir
