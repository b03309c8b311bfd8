import TapeAir.Proofs.Constraint.Extended
/-! # The extension repeats the base

The constraints of an extended table begin with those of its base. At extended rows each has the
lifted value of the base constraint of the same number, whatever stands in the argument columns. So
a matrix violates the same of them before and after its extension.
-/
namespace TapeAir

section Places
variable {F G : Type} [Zero F] [DecidableEq F] [Zero G] [DecidableEq G]

theorem nonzeroPlaces_map {f : F → G} (hf : ∀ x, f x = 0 ↔ x = 0) (vs : List F) :
    nonzeroPlaces (vs.map f) = nonzeroPlaces vs := by
  simp only [nonzeroPlaces, List.zipIdx_map, List.filterMap_map, Function.comp_def, Prod.map_fst,
    Prod.map_snd, hf, id]

theorem filter_nonzeroPlaces_append {vs : List F} {n : ℕ} (hn : vs.length = n) (more : List F) :
    (nonzeroPlaces (vs ++ more)).filter (· < n) = nonzeroPlaces vs := by
  subst hn
  simp only [nonzeroPlaces, List.zipIdx_append, List.filterMap_append, List.filter_append]
  rw [List.filter_eq_self.mpr, List.filter_eq_nil_iff.mpr, List.append_nil]
  · intro i hi
    obtain ⟨v, hv, hvi⟩ := List.mem_filterMap.mp hi
    obtain ⟨-, rfl⟩ : ¬v.1 = 0 ∧ v.2 = i := by simpa using hvi
    have hle := List.le_snd_of_mem_zipIdx hv
    simp only [decide_eq_true_eq]
    omega
  · intro i hi
    obtain ⟨v, hv, hvi⟩ := List.mem_filterMap.mp hi
    obtain ⟨-, rfl⟩ : ¬v.1 = 0 ∧ v.2 = i := by simpa using hvi
    simpa using List.snd_lt_of_mem_zipIdx hv

end Places

/-- Lifted values with more behind them have the violations of the values, under the same numbers. -/
theorem filter_nonzeroPlaces_lift {vs : List Goldilocks} {n : ℕ} (hn : vs.length = n)
    (more : List Cubic) :
    (nonzeroPlaces (vs.map Cubic.lift ++ more)).filter (· < n) = nonzeroPlaces vs := by
  rw [filter_nonzeroPlaces_append ((List.length_map _).trans hn),
    nonzeroPlaces_map Cubic.lift_eq_zero_iff]

section Values
variable {F : Type} [Zero F] [Add F] [Mul F] [Pow F ℕ] {n : ℕ}

theorem pairValues_eq {ρ : Type} {cs : List (Poly F n)} {cells : ρ → List F}
    {values : ρ → ρ → List F} (h : ∀ r s, rowValues cs (cells r ++ cells s) = .ok (values r s))
    (rows : List ρ) :
    pairValues cs (rows.map cells) =
      .ok ((rows.zip rows.tail).map fun p => values p.1 p.2) := by
  have hpure (p : ρ × ρ) : rowValues cs (cells p.1 ++ cells p.2) = pure (values p.1 p.2) := h _ _
  simp only [pairValues, ← List.map_tail, List.zip_map, List.mapM_map, Function.comp_def,
    Prod.map_fst, Prod.map_snd, hpure, List.mapM_pure]
  rfl

end Values

/-- Each base constraint has at its point a value of which the extended constraint of the same
number has the lift. -/
def Repeats {m n : ℕ} (base : List (Poly Goldilocks m)) (extended : List (Poly Cubic n))
    (point : Row) (extendedPoint : ExtendedRow) : Prop :=
  ∀ (j : ℕ) (c : Poly Goldilocks m), base[j]? = some c → ∃ e ∈ extended[j]?, ∃ v,
    c.evalList point = .ok v ∧ e.evalList extendedPoint = .ok (.lift v)

theorem repeats_of_rowValues {m n : ℕ} {base : List (Poly Goldilocks m)}
    {extended : List (Poly Cubic n)} {point : Row} {extendedPoint : ExtendedRow}
    {vs : List Goldilocks} {more : List Cubic} (hpoint : point.length = m)
    (hextendedPoint : extendedPoint.length = n) (hbase : rowValues base point = .ok vs)
    (hextended : rowValues extended extendedPoint = .ok (vs.map Cubic.lift ++ more)) :
    Repeats base extended point extendedPoint := by
  rw [rowValues_eq hpoint, Except.ok.injEq] at hbase
  rw [rowValues_eq hextendedPoint, Except.ok.injEq] at hextended
  intro j c hc
  have hvalue : vs[j]? = some (c.eval ⟨point.toArray, hpoint⟩) := by
    rw [← hbase, List.getElem?_map, hc]
    rfl
  have hlift : (vs.map Cubic.lift ++ more)[j]? =
      some (.lift (c.eval ⟨point.toArray, hpoint⟩)) := by
    have hj : j < (vs.map Cubic.lift).length := by
      rw [List.length_map]
      exact (List.getElem?_eq_some_iff.mp hvalue).1
    rw [List.getElem?_append_left hj, List.getElem?_map, hvalue]
    rfl
  rw [← hextended, List.getElem?_map, Option.map_eq_some_iff] at hlift
  obtain ⟨e, he, hev⟩ := hlift
  refine ⟨e, he, _, Poly.evalList_eq hpoint c, ?_⟩
  rw [Poly.evalList_eq hextendedPoint, hev]

namespace Kind

theorem length_baseTransition (k : Kind) {α : Type} [Zero α] [One α] [Add α] [Sub α] [Mul α]
    [NatCast α] (r s : ℕ → α) :
    (k.transitionFormulas r s).length = k.baseTransition.length := by
  cases k <;> rfl

theorem length_baseBoundary (k : Kind) {α : Type} (r : ℕ → α) :
    (k.boundaryFormulas r).length = k.baseBoundary.length := by
  cases k <;> rfl

variable {k : Kind}

theorem pairViolations_agree (ch : Challenges) (rows : List k.FullRow) :
    ∃ vs ws, pairViolations k.baseTransition (rows.map (·.base)) = .ok vs ∧
      pairViolations (k.transition ch) (rows.map (·.cells)) = .ok ws ∧
      ws.filter (·.2 < k.baseTransition.length) = vs := by
  have hbase : pairViolations k.baseTransition (rows.map (·.base)) =
      .ok (violatedPairs ((rows.zip rows.tail).map fun p =>
        k.transitionFormulas (column p.1.base) (column p.2.base))) := by
    rw [pairViolations, pairValues_eq FullRow.rowValues_baseTransition]
    rfl
  have hextended : pairViolations (k.transition ch) (rows.map (·.cells)) =
      .ok (violatedPairs ((rows.zip rows.tail).map fun p =>
        (k.transitionFormulas (column p.1.base) (column p.2.base)).map Cubic.lift ++
          argumentTransition id ch k (column (p.1.cells ++ p.2.cells)) (column p.2.cells))) := by
    rw [pairViolations, pairValues_eq (FullRow.rowValues_transition ch)]
    rfl
  refine ⟨_, _, hbase, hextended, ?_⟩
  simp only [violatedPairs, List.filter_flatMap, List.zipIdx_map, List.flatMap_map,
    List.filter_map, Function.comp_def, Prod.map_fst, Prod.map_snd, id]
  refine List.flatMap_congr fun p _ => congrArg _ ?_
  exact filter_nonzeroPlaces_lift (k.length_baseTransition _ _) _

theorem rowViolations_agree (r : k.FullRow) :
    ∃ vs ws, rowViolations k.baseBoundary r.base = .ok vs ∧
      rowViolations k.boundary r.cells = .ok ws ∧
      ws.filter (· < k.baseBoundary.length) = vs := by
  have hbase : rowViolations k.baseBoundary r.base =
      .ok (nonzeroPlaces (k.boundaryFormulas (column r.base))) := by
    rw [rowViolations, r.rowValues_baseBoundary]
    rfl
  have hextended : rowViolations k.boundary r.cells =
      .ok (nonzeroPlaces ((k.boundaryFormulas (column r.base)).map Cubic.lift ++
        k.argumentBoundary (column r.cells))) := by
    rw [rowViolations, r.rowValues_boundary]
    rfl
  refine ⟨_, _, hbase, hextended, ?_⟩
  exact filter_nonzeroPlaces_lift (k.length_baseBoundary _) _

/-- At extended rows the constraints of the extension have first the lifted values of the base
constraints, number by number. No boundary constraint is added for a table with a permutation. So
the violations with those numbers are the same before and after the extension. -/
theorem extension_repeats_base (k : Kind) (ch : Challenges) :
    (∀ r s : k.FullRow,
      Repeats k.baseTransition (k.transition ch) (r.base ++ s.base) (r.cells ++ s.cells)) ∧
    (∀ r : k.FullRow, Repeats k.baseBoundary k.boundary r.base r.cells) ∧
    (k ∈ [.processor, .instruction, .memory] → k.boundary.length = k.baseBoundary.length) ∧
    (∀ rows : List k.FullRow, ∃ vs ws,
      pairViolations k.baseTransition (rows.map (·.base)) = .ok vs ∧
      pairViolations (k.transition ch) (rows.map (·.cells)) = .ok ws ∧
      ws.filter (·.2 < k.baseTransition.length) = vs) ∧
    ∀ r : k.FullRow, ∃ vs ws, rowViolations k.baseBoundary r.base = .ok vs ∧
      rowViolations k.boundary r.cells = .ok ws ∧
      ws.filter (· < k.baseBoundary.length) = vs := by
  refine ⟨?_, ?_, ?_, pairViolations_agree ch, rowViolations_agree⟩
  · intro r s
    exact repeats_of_rowValues (r.length_base_append s) (r.length_cells_append s)
      (r.rowValues_baseTransition s) (r.rowValues_transition ch s)
  · intro r
    exact repeats_of_rowValues r.length_base r.length_cells r.rowValues_baseBoundary
      r.rowValues_boundary
  · intro hk
    cases k with
    | processor => rfl
    | instruction => rfl
    | memory => rfl
    | input => simp at hk
    | output => simp at hk

def skipping : List Kind.memory.FullRow :=
  [⟨[0, 0, 0, 0], [1], rfl, rfl⟩, ⟨[(2 : ℕ), (2 : ℕ), (5 : ℕ), 0], [0], rfl, rfl⟩]

theorem skipping_violates_alike :
    Kind.memory ∈ [.processor, .instruction, .memory] ∧ Kind.memory.boundary.length = 3 ∧
      pairViolations Kind.memory.baseTransition (skipping.map (·.base)) =
        .ok [(0, 0), (0, 1), (0, 5)] ∧
      ∃ ws, pairViolations (Kind.memory.transition (.ofList [])) (skipping.map (·.cells)) = .ok ws ∧
        ws.filter (·.2 < 6) = [(0, 0), (0, 1), (0, 5)] := by
  obtain ⟨-, -, hlength, hpairs, -⟩ := extension_repeats_base .memory (.ofList [])
  have hmemory : Kind.memory ∈ [.processor, .instruction, .memory] := by decide
  have hbase : pairViolations Kind.memory.baseTransition (skipping.map (·.base)) =
      .ok [(0, 0), (0, 1), (0, 5)] := by decide +kernel
  obtain ⟨vs, ws, hvs, hws, hagree⟩ := hpairs skipping
  obtain rfl := Except.ok.inj (hbase.symm.trans hvs)
  exact ⟨hmemory, hlength hmemory, hbase, ws, hws, hagree⟩

end Kind

end TapeAir
