import TapeAir.Field.Goldilocks
/-! # The cubic extension field

Residues of polynomials over the prime field modulo `X ^ 3 - X + 1`, held by their three
coefficients. The inverse is the cofactor divided by the norm: the cofactor is the first column of
the adjugate of the matrix that multiplies by the element, and the norm is its determinant.
-/
namespace TapeAir

/-- The element `c0 + c1 * X + c2 * X ^ 2`, where `X ^ 3 = X - 1`. -/
structure Cubic where
  c0 : Goldilocks
  c1 : Goldilocks
  c2 : Goldilocks
deriving DecidableEq

namespace Cubic

def lift (a : Goldilocks) : Cubic := ⟨a, 0, 0⟩

def scale (s : Goldilocks) (a : Cubic) : Cubic := ⟨a.c0 * s, a.c1 * s, a.c2 * s⟩

instance : Zero Cubic := ⟨lift 0⟩
instance : One Cubic := ⟨lift 1⟩
instance : Inhabited Cubic := ⟨0⟩
instance : NatCast Cubic := ⟨fun n => lift n⟩
instance : Add Cubic := ⟨fun a b => ⟨a.c0 + b.c0, a.c1 + b.c1, a.c2 + b.c2⟩⟩
instance : Neg Cubic := ⟨fun a => ⟨-a.c0, -a.c1, -a.c2⟩⟩
instance : Sub Cubic := ⟨fun a b => ⟨a.c0 - b.c0, a.c1 - b.c1, a.c2 - b.c2⟩⟩

/-- The coefficients of `X ^ 3` and `X ^ 4` return as `X - 1` and `X ^ 2 - X`. -/
def mul (a b : Cubic) : Cubic :=
  let d3 := a.c1 * b.c2 + a.c2 * b.c1
  let d4 := a.c2 * b.c2
  ⟨a.c0 * b.c0 - d3,
   a.c0 * b.c1 + a.c1 * b.c0 + d3 - d4,
   a.c0 * b.c2 + a.c1 * b.c1 + a.c2 * b.c0 + d4⟩

instance : Mul Cubic := ⟨mul⟩
instance : Pow Cubic Nat := ⟨power⟩

/-- The element whose product with `a` is the norm of `a`. -/
def cofactor (a : Cubic) : Cubic :=
  ⟨(a.c0 + a.c2) * (a.c0 + a.c2) - (a.c1 - a.c2) * a.c1,
   (a.c1 - a.c2) * a.c2 - a.c1 * (a.c0 + a.c2),
   a.c1 * a.c1 - (a.c0 + a.c2) * a.c2⟩

/-- The determinant of the matrix of multiplication by `a`. -/
def norm (a : Cubic) : Goldilocks :=
  a.c0 * a.cofactor.c0 - a.c2 * a.cofactor.c1 - a.c1 * a.cofactor.c2

/-- The inverse of zero is zero. -/
instance : Inv Cubic := ⟨fun a => scale a.norm⁻¹ a.cofactor⟩

instance : Div Cubic := ⟨fun a b => a * b⁻¹⟩

def text (a : Cubic) : String :=
  s!"({a.c0.text}, {a.c1.text}, {a.c2.text})"

def toList (a : Cubic) : List Goldilocks := [a.c0, a.c1, a.c2]

def ofList? : List Goldilocks → Option Cubic
  | [c0, c1, c2] => some ⟨c0, c1, c2⟩
  | _ => none

theorem ofList?_toList (a : Cubic) : ofList? a.toList = some a := rfl

@[ext] theorem ext {a b : Cubic} (h0 : a.c0 = b.c0) (h1 : a.c1 = b.c1) (h2 : a.c2 = b.c2) :
    a = b := by
  cases a
  cases b
  simp_all

theorem lift_injective {a b : Goldilocks} (h : lift a = lift b) : a = b :=
  congrArg c0 h

end Cubic

end TapeAir
