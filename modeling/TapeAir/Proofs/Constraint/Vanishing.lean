import TapeAir.Proofs.Constraint.Extended
/-! # A constraint by its place

A family of constraints is a list, and one of them is singled out by its place. In a family of
transitions the constraints of the base come first and those of the argument columns behind them.
-/
namespace TapeAir

section Places
variable {F : Type} [Zero F] [Add F] [Mul F] [Pow F ℕ] {n : ℕ}

def VanishesAt (cs : List (Poly F n)) (place : ℕ) (row : List F) : Prop :=
  ∃ c ∈ cs[place]?, c.evalList row = .ok 0

def VanishesOnPairs (cs : List (Poly F n)) (place : ℕ) (rows : List (List F)) : Prop :=
  rows.IsChain fun r s => VanishesAt cs place (r ++ s)

def VanishesOnFirst (cs : List (Poly F n)) (place : ℕ) (rows : List (List F)) : Prop :=
  ∃ row ∈ rows.head?, VanishesAt cs place row

def VanishesOnLast (cs : List (Poly F n)) (place : ℕ) (rows : List (List F)) : Prop :=
  ∃ row ∈ rows.getLast?, VanishesAt cs place row

theorem vanishesAt_iff {cs : List (Poly F n)} {row values : List F} (hlength : row.length = n)
    (h : rowValues cs row = .ok values) (place : ℕ) :
    VanishesAt cs place row ↔ values[place]? = some 0 := by
  rw [rowValues_eq hlength] at h
  obtain rfl := Except.ok.inj h
  simp [VanishesAt, Poly.evalList_eq hlength]

end Places

namespace Kind.FullRow
variable {k : Kind}

theorem vanishesAt_transition (ch : Challenges) (place : ℕ) (r s : k.FullRow) :
    VanishesAt (k.transition ch) place (r.cells ++ s.cells) ↔
      ((k.transitionFormulas (column r.base) (column s.base)).map Cubic.lift ++
        argumentTransition id ch k (column (r.cells ++ s.cells)) (column s.cells))[place]? =
          some 0 :=
  vanishesAt_iff (r.length_cells_append s) (r.rowValues_transition ch s) place

theorem vanishesAt_boundary (place : ℕ) (r : k.FullRow) :
    VanishesAt k.boundary place r.cells ↔
      ((k.boundaryFormulas (column r.base)).map Cubic.lift ++
        k.argumentBoundary (column r.cells))[place]? = some 0 :=
  vanishesAt_iff r.length_cells r.rowValues_boundary place

theorem vanishesAt_terminal (ch : Challenges) (padding : ℕ) (t : k.Terminals) (place : ℕ)
    (r : k.FullRow) :
    VanishesAt (k.terminal ch padding t) place r.cells ↔
      (argumentTerminal id ch padding (column r.cells) k t)[place]? = some 0 :=
  vanishesAt_iff r.length_cells (r.rowValues_terminal ch padding t) place

end Kind.FullRow

end TapeAir
