import TapeAir.Power
/-! # The prime field of order `2 ^ 64 - 2 ^ 32 + 1`

An element is its canonical representative, a natural number below the modulus. Every operation
computes on representatives and reduces once. Division multiplies by the inverse, and the inverse
of zero is zero, so all operations are total.
-/
namespace TapeAir

/-- The prime `2 ^ 64 - 2 ^ 32 + 1`. One less than it is `2 ^ 32` times an odd number. -/
def Goldilocks.modulus : Nat := 0xffffffff00000001

/-- A residue modulo `Goldilocks.modulus`, held as its representative below the modulus. -/
structure Goldilocks where
  val : Nat
  val_lt : val < Goldilocks.modulus
deriving DecidableEq

namespace Goldilocks

@[ext] theorem ext {a b : Goldilocks} (h : a.val = b.val) : a = b := by
  cases a
  cases b
  simp_all

def ofNat (n : Nat) : Goldilocks :=
  ⟨n % modulus, Nat.mod_lt n (by decide)⟩

def ofInt (z : Int) : Goldilocks :=
  ofNat (z % modulus).toNat

instance : Zero Goldilocks := ⟨⟨0, by decide⟩⟩
instance : One Goldilocks := ⟨⟨1, by decide⟩⟩
instance : Inhabited Goldilocks := ⟨0⟩
instance : NatCast Goldilocks := ⟨ofNat⟩
instance : IntCast Goldilocks := ⟨ofInt⟩
instance : Add Goldilocks := ⟨fun a b => ofNat (a.val + b.val)⟩
instance : Neg Goldilocks := ⟨fun a => ofNat (modulus - a.val)⟩
instance : Sub Goldilocks := ⟨fun a b => ofNat (a.val + (modulus - b.val))⟩
instance : Mul Goldilocks := ⟨fun a b => ofNat (a.val * b.val)⟩
instance : Pow Goldilocks Nat := ⟨power⟩

/-- The exponent is two below the modulus, as Fermat's little theorem asks; zero goes to zero. -/
instance : Inv Goldilocks := ⟨fun a => a ^ (modulus - 2)⟩

instance : Div Goldilocks := ⟨fun a b => a * b⁻¹⟩

def text (a : Goldilocks) : String := toString a.val

theorem val_zero : (0 : Goldilocks).val = 0 := rfl

theorem val_one : (1 : Goldilocks).val = 1 := rfl

theorem val_natCast (n : Nat) : (n : Goldilocks).val = n % modulus := rfl

theorem val_add (a b : Goldilocks) : (a + b).val = (a.val + b.val) % modulus := rfl

theorem val_mul (a b : Goldilocks) : (a * b).val = a.val * b.val % modulus := rfl

theorem val_neg (a : Goldilocks) : (-a).val = (modulus - a.val) % modulus := rfl

theorem val_sub (a b : Goldilocks) :
    (a - b).val = (a.val + (modulus - b.val)) % modulus := rfl

theorem natCast_val (a : Goldilocks) : (a.val : Goldilocks) = a :=
  ext (Nat.mod_eq_of_lt a.val_lt)

end Goldilocks

end TapeAir
