import TapeAir.Field.Cubic
import TapeAir.Text.Sha256
/-! # Elements drawn from a seed

A seed is any text. Coefficient `j` of element `i` is the digest of `seed:i:j`, reduced.
-/
namespace TapeAir.Cubic

def sampleCoefficient (seed : String) (i j : Nat) : Goldilocks :=
  .ofNat (Sha256.digest s!"{seed}:{i}:{j}".toUTF8.toList)

def sample (seed : String) (count : Nat) : List Cubic :=
  (List.range count).map fun i =>
    ⟨sampleCoefficient seed i 0, sampleCoefficient seed i 1, sampleCoefficient seed i 2⟩

end TapeAir.Cubic
