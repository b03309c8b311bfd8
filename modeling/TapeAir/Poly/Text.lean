import TapeAir.Poly.Basic
/-! # The shown form of a polynomial

Terms stand in the order of their exponents, joined by plus signs. A term is its coefficient
followed by its variables, and only an exponent above one is written.
-/
namespace TapeAir.Poly

def factorText (i e : Nat) : String :=
  if e = 1 then s!"x{i}" else s!"x{i}^{e}"

def factorTexts {n : Nat} (m : Monomial n) : List String :=
  m.toList.zipIdx.filterMap fun p => if p.1 = 0 then none else some (factorText p.2 p.1)

def termText {F : Type} {n : Nat} (coefficient : F → String) (t : Term F n) : String :=
  "*".intercalate (coefficient t.2 :: factorTexts t.1)

def text {F : Type} [Zero F] {n : Nat} (coefficient : F → String) (p : Poly F n) : String :=
  let body := " + ".intercalate (p.terms.map (termText coefficient))
  if p.terms.isEmpty then "MPoly(0)" else s!"MPoly({body})"

end TapeAir.Poly
