import TapeAir.Constraint.Family
import TapeAir.Poly.Shaped
/-! # Checking rows against constraints

Boundary and terminal constraints are evaluated at one row, transition constraints at every pair of
consecutive rows. A row of the wrong width is noticed only when a constraint is evaluated at it.
-/
namespace TapeAir

section Rows
variable {F : Type} [Zero F] [Add F] [Mul F] [Pow F Nat] {n : Nat}

def Poly.evalList (p : Poly F n) (point : List F) : Except PolyError F :=
  if h : point.length = n then .ok (p.eval ⟨point.toArray, h⟩)
  else .error (.pointLength point.length n)

def rowValues (cs : List (Poly F n)) (row : List F) : Except PolyError (List F) :=
  cs.mapM (·.evalList row)

def pairValues (cs : List (Poly F n)) (rows : List (List F)) : Except PolyError (List (List F)) :=
  (rows.zip rows.tail).mapM fun p => rowValues cs (p.1 ++ p.2)

variable [DecidableEq F]

def nonzeroPlaces (values : List F) : List Nat :=
  values.zipIdx.filterMap fun v => if v.1 = 0 then none else some v.2

def violatedPairs (values : List (List F)) : List (Nat × Nat) :=
  values.zipIdx.flatMap fun v => (nonzeroPlaces v.1).map (v.2, ·)

def rowViolations (cs : List (Poly F n)) (row : List F) : Except PolyError (List Nat) :=
  (rowValues cs row).map nonzeroPlaces

def pairViolations (cs : List (Poly F n)) (rows : List (List F)) :
    Except PolyError (List (Nat × Nat)) :=
  (pairValues cs rows).map violatedPairs

end Rows

end TapeAir
