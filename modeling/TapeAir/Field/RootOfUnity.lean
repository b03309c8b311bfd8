import TapeAir.Field.Goldilocks
/-! # Powers of two and roots of unity

The multiplicative group of the prime field is cyclic and generated by 7. Its order is divisible by
`2 ^ 32`, so it has primitive roots of unity for every power of two up to that one.
-/
namespace TapeAir

/-- Whether an integer is a power of two: it is positive, and no binary digit of it is also one of
its predecessor. -/
def isPowerOfTwo (n : Int) : Bool :=
  decide (1 ≤ n) && (n.toNat &&& (n.toNat - 1)) == 0

/-- The least power of two that is at least `n`, and zero where `n` is not positive. -/
def nextPowerOfTwo (n : Int) : Nat :=
  if n ≤ 0 then 0
  else if n = 1 then 1
  else 1 <<< ((n.toNat - 1).log2 + 1)

inductive RootError where
  | notPowerOfTwo (n : Int)
  | tooLarge (n : Int)
deriving DecidableEq, Repr

def RootError.message : RootError → String
  | .notPowerOfTwo n => s!"n은 2의 거듭제곱이어야 합니다: {n}"
  | .tooLarge n => s!"n은 2^32 이하여야 합니다: {n}"

namespace Goldilocks

def generator : Goldilocks := (7 : Nat)

/-- The greatest power of two that divides the order of the multiplicative group, `2 ^ 32`. -/
def maximalOrder : Int := 0x100000000

/-- A primitive root of unity of order `n`, for `n` a power of two up to `2 ^ 32`. -/
def rootOfUnity (n : Int) : Except RootError Goldilocks :=
  if !isPowerOfTwo n then .error (.notPowerOfTwo n)
  else if n > maximalOrder then .error (.tooLarge n)
  else .ok (generator ^ ((modulus - 1) / n.toNat))

end Goldilocks

end TapeAir
