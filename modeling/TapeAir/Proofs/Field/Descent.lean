import Mathlib.RingTheory.Coprime.Basic
import Mathlib.Tactic.Ring
import TapeAir.Proofs.Field.Prime
import TapeAir.Proofs.Loop
/-! # Euclidean descent

Two elements are kept, each with a factor by which it comes from one given element, but for multiples
of a modulus. In each turn a multiple of the lower one is taken off the higher one, and the two change
places. Whatever multiple is taken, the factors stay right and the two stay coprime. So the factor of
a one is an inverse. Among integers the multiple is the quotient, and the descent ends at one.
-/
namespace TapeAir

structure Descent (α : Type) where
  lowFactor : α
  low : α
  highFactor : α
  high : α

namespace Descent

def map {α β : Type} (f : α → β) (d : Descent α) : Descent β :=
  ⟨f d.lowFactor, f d.low, f d.highFactor, f d.high⟩

section Ring
variable {R : Type} [CommRing R] {a n : R} {d : Descent R}

def start (a n : R) : Descent R := ⟨1, a, 0, n⟩

def next (d : Descent R) (q : R) : Descent R where
  lowFactor := d.highFactor - d.lowFactor * q
  low := d.high - d.low * q
  highFactor := d.lowFactor
  high := d.low

/-- The factors lead from `a` to the two elements, modulo `n`, and the two are coprime. -/
structure Sound (a n : R) (d : Descent R) : Prop where
  low : n ∣ d.lowFactor * a - d.low
  high : n ∣ d.highFactor * a - d.high
  coprime : IsCoprime d.low d.high

theorem sound_start (h : IsCoprime a n) : (start a n).Sound a n where
  low := by simp [start]
  high := by simp [start]
  coprime := h

theorem Sound.next (h : d.Sound a n) (q : R) : (d.next q).Sound a n where
  low := by
    have hsub : (d.next q).lowFactor * a - (d.next q).low =
        d.highFactor * a - d.high - (d.lowFactor * a - d.low) * q := by
      simp only [Descent.next]
      ring
    rw [hsub]
    exact dvd_sub h.high (h.low.mul_right q)
  high := h.low
  coprime := IsCoprime.sub_mul_left_left_iff.mpr h.coprime.symm

/-- Zero below leaves a unit above. -/
theorem Sound.isUnit_high (h : d.Sound a n) (hlow : d.low = 0) : IsUnit d.high := by
  have hcoprime := h.coprime
  rwa [hlow, isCoprime_zero_left] at hcoprime

end Ring

section Integers
variable {a n i j : ℤ}

/-- What the search for an inverse of `a` modulo `n` finds: the factor of the last element, reduced.
For multiples of `n` it finds zero without a descent. -/
inductive Finds (n a : ℤ) : ℤ → Prop
  | multiple : a % n = 0 → Finds n a 0
  | factor {e : Descent ℤ} : a % n ≠ 0 →
      Loop (fun d => 1 < d.low) (fun d => some (d.next (d.high / d.low))) (start (a % n) n) e →
      Finds n a (e.lowFactor % n)

theorem Finds.unique (hi : Finds n a i) (hj : Finds n a j) : j = i := by
  cases hi with
  | multiple hzero =>
    cases hj with
    | multiple => rfl
    | factor hne => exact absurd hzero hne
  | factor hne hloop =>
    cases hj with
    | multiple hzero => exact absurd hzero hne
    | factor _ hloop' => rw [hloop.unique hloop']

theorem next_low (d : Descent ℤ) : (d.next (d.high / d.low)).low = d.high % d.low := by
  rw [Int.emod_def]
  rfl

theorem exists_loop (hn : 1 < n) (ha : 0 ≤ a) (h : IsCoprime a n) :
    ∃ e, Loop (fun d => 1 < d.low) (fun d => some (d.next (d.high / d.low))) (start a n) e ∧
      n ∣ e.lowFactor * a - 1 := by
  let Inv (d : Descent ℤ) : Prop := d.Sound a n ∧ 0 ≤ d.low ∧ 1 < d.high
  have hbody (d : Descent ℤ) (hd : Inv d) (htest : decide (1 < d.low) = true) :
      ∃ d', some (d.next (d.high / d.low)) = some d' ∧ Inv d' ∧ d'.low.toNat < d.low.toNat := by
    obtain ⟨hsound, -, -⟩ := hd
    have hlow : 1 < d.low := of_decide_eq_true htest
    have hnonneg : 0 ≤ d.high % d.low := Int.emod_nonneg _ (by omega)
    have hlt : d.high % d.low < d.low := Int.emod_lt_of_pos _ (by omega)
    rw [← next_low] at hnonneg hlt
    exact ⟨_, rfl, ⟨hsound.next _, hnonneg, hlow⟩, by omega⟩
  have hstart : Inv (start a n) := ⟨sound_start h, ha, hn⟩
  obtain ⟨e, hloop, ⟨hsound, hnonneg, hhigh⟩, htest⟩ :=
    Loop.exists_of_invariant (fun d => d.low.toNat) hbody hstart
  have hle : ¬1 < e.low := of_decide_eq_false htest
  have hne : e.low ≠ 0 := by
    intro hzero
    rcases Int.isUnit_iff.mp (hsound.isUnit_high hzero) with hunit | hunit <;> omega
  have hone : e.low = 1 := by omega
  exact ⟨e, hloop, hone ▸ hsound.low⟩

end Integers

end Descent

end TapeAir
