/-! # Decimal numbers

A number written with a fraction or an exponent. It is read from its digits and shown with the
fewest of them, so the written form itself does not matter, but its sign does, also that of zero.
-/
namespace TapeAir

/-- The number `digits * 10 ^ exponent` with its sign. -/
structure Decimal where
  negative : Bool
  digits : Nat
  exponent : Int
deriving DecidableEq, Repr

namespace Decimal

def splitAt (test : Char → Bool) (cs : List Char) : List Char × List Char :=
  (cs.takeWhile (!test ·), (cs.dropWhile (!test ·)).drop 1)

/-- An exponent with any sign or none; no exponent at all is zero. -/
def readExponent? : List Char → Option Int
  | [] => some 0
  | '+' :: cs => (String.ofList cs).toInt?
  | cs => (String.ofList cs).toInt?

def readMagnitude? (negative : Bool) (cs : List Char) : Option Decimal := do
  let (mantissa, exponent) := splitAt (fun c => c == 'e' || c == 'E') cs
  let (whole, fraction) := splitAt (· == '.') mantissa
  return {
    negative
    digits := ← (String.ofList (whole ++ fraction)).toNat?
    exponent := (← readExponent? exponent) - fraction.length }

def ofText? (s : String) : Option Decimal :=
  match s.toList with
  | '-' :: cs => readMagnitude? true cs
  | cs => readMagnitude? false cs

/-- The digits of a positive number without zeros at the end, and how many were dropped. -/
def significant (n : Nat) : Nat × Nat :=
  if _h : 0 < n ∧ n % 10 = 0 then
    let (digits, dropped) := significant (n / 10)
    (digits, dropped + 1)
  else (n, 0)
termination_by n
decreasing_by omega

/-- A digit sequence with a point after the first `whole` digits, which may lie outside it. -/
def positional (digits : List Char) (whole : Int) : String :=
  if whole ≤ 0 then "0." ++ String.ofList (List.replicate (-whole).toNat '0' ++ digits)
  else
    let padded := digits ++ List.replicate (whole.toNat - digits.length) '0'
    let fraction := padded.drop whole.toNat
    String.ofList (padded.take whole.toNat) ++ "." ++
      (if fraction.isEmpty then "0" else String.ofList fraction)

/-- A digit sequence with the point after its first digit and an exponent of at least two digits. -/
def scientific (digits : List Char) (exponent : Int) : String :=
  let fraction := digits.drop 1
  let size := toString exponent.natAbs
  String.ofList (digits.take 1)
    ++ (if fraction.isEmpty then "" else "." ++ String.ofList fraction)
    ++ "e" ++ (if exponent < 0 then "-" else "+")
    ++ (if size.length < 2 then "0" ++ size else size)

/-- The fewest digits, written positionally from a ten-thousandth up to below `10 ^ 16`. -/
def text (d : Decimal) : String :=
  let (n, dropped) := significant d.digits
  let digits := (toString n).toList
  let whole := digits.length + dropped + d.exponent
  let magnitude :=
    if n = 0 then "0.0"
    else if -4 < whole ∧ whole ≤ 16 then positional digits whole
    else scientific digits (whole - 1)
  (if d.negative then "-" else "") ++ magnitude

end Decimal

end TapeAir
