import Mathlib.Algebra.Polynomial.RingDivision
import Mathlib.Data.Nat.Find
import TapeAir.Proofs.Field.Coefficients
import TapeAir.Proofs.Field.Descent
/-! # Euclidean descent of polynomials

The descent divides lists of coefficients. Its quotients are rounded: only their leading coefficient
is that of a division, which is enough to lower the degree, for then the leading coefficient of the
higher polynomial goes. It may take several turns before the degrees are in order again, and a turn
that finds them out of order only changes the two polynomials' places. If the two are coprime, the
descent ends at a constant that is not zero, and its factor divided by it is an inverse.
-/
namespace TapeAir

open Polynomial

variable {F : Type} [Field F]

structure IsRoundedQuotient (p q r : F[X]) : Prop where
  natDegree_le : r.natDegree ≤ p.natDegree - q.natDegree
  zero : p.natDegree < q.natDegree → r = 0
  top : q.natDegree ≤ p.natDegree →
    r.coeff (p.natDegree - q.natDegree) = p.leadingCoeff / q.leadingCoeff

theorem IsRoundedQuotient.natDegree_sub_mul_lt {p q r : F[X]} (h : IsRoundedQuotient p q r)
    (hle : q.natDegree ≤ p.natDegree) (hpos : 0 < q.natDegree) :
    (p - q * r).natDegree < p.natDegree := by
  have hq : q.leadingCoeff ≠ 0 := by
    apply leadingCoeff_ne_zero.mpr
    rintro rfl
    simp at hpos
  have hsum : q.natDegree + (p.natDegree - q.natDegree) = p.natDegree := by omega
  have hmul : (q * r).natDegree ≤ p.natDegree :=
    hsum ▸ natDegree_mul_le_of_le le_rfl h.natDegree_le
  have htop : (q * r).coeff p.natDegree = p.leadingCoeff := by
    calc (q * r).coeff p.natDegree
        = (q * r).coeff (q.natDegree + (p.natDegree - q.natDegree)) := by rw [hsum]
      _ = q.leadingCoeff * r.coeff (p.natDegree - q.natDegree) :=
        coeff_mul_add_eq_of_natDegree_le le_rfl h.natDegree_le
      _ = p.leadingCoeff := by rw [h.top hle, mul_div_cancel₀ _ hq]
  have hsub : (p - q * r).natDegree ≤ p.natDegree :=
    (natDegree_sub_le _ _).trans (max_le le_rfl hmul)
  rcases hsub.lt_or_eq with hlt | heq
  · exact hlt
  · have hzero : p - q * r = 0 := by
      apply leadingCoeff_eq_zero.mp
      rw [leadingCoeff, heq, coeff_sub, htop, coeff_natDegree, sub_self]
    rw [hzero, natDegree_zero]
    omega

namespace Descent
variable {n : ℕ} {d : Descent F[X]} {r : F[X]}

/-- Each factor leaves room, up to degree `n`, for the polynomial that is not its own. -/
structure Bounded (n : ℕ) (d : Descent F[X]) : Prop where
  lowFactor : d.lowFactor.natDegree + d.high.natDegree ≤ n
  highFactor : d.highFactor.natDegree + d.low.natDegree ≤ n
  high : 0 < d.high.natDegree

/-- The degrees count twice, so a change of places pays for the change of degrees before it. -/
noncomputable def size (d : Descent F[X]) : ℕ :=
  2 * (d.low.natDegree + d.high.natDegree) + if d.high.natDegree < d.low.natDegree then 1 else 0

theorem Bounded.next (h : d.Bounded n) (hr : IsRoundedQuotient d.high d.low r)
    (hlow : 0 < d.low.natDegree) : (d.next r).Bounded n ∧ (d.next r).size < d.size := by
  have hlowFactor := h.lowFactor
  have hhighFactor := h.highFactor
  rcases Nat.lt_or_ge d.high.natDegree d.low.natDegree with hlt | hle
  · -- The quotient is zero, so the two change places.
    obtain rfl := hr.zero hlt
    have hnext : d.next 0 = ⟨d.highFactor, d.high, d.lowFactor, d.low⟩ := by
      simp [Descent.next]
    rw [hnext]
    refine ⟨⟨hhighFactor, hlowFactor, hlow⟩, ?_⟩
    simp only [size]
    rw [if_neg (by omega), if_pos hlt]
    omega
  · have hdegree : (d.next r).low.natDegree < d.high.natDegree := hr.natDegree_sub_mul_lt hle hlow
    have hquotient := hr.natDegree_le
    have hproduct : (d.lowFactor * r).natDegree ≤ d.lowFactor.natDegree + r.natDegree :=
      natDegree_mul_le
    have hfactor : (d.next r).lowFactor.natDegree ≤
        max d.highFactor.natDegree (d.lowFactor.natDegree + r.natDegree) :=
      natDegree_sub_le_of_le le_rfl hproduct
    refine ⟨⟨?_, ?_, hlow⟩, ?_⟩
    · change (d.next r).lowFactor.natDegree + d.low.natDegree ≤ n
      omega
    · change d.lowFactor.natDegree + (d.next r).low.natDegree ≤ n
      omega
    · have hhigh : (d.next r).high = d.low := rfl
      simp only [size, hhigh]
      split <;> omega

end Descent

namespace Coefficients
variable {l a b m q e : List F} {n : ℕ}

theorem toPoly_take (h : (toPoly l).natDegree < n) : toPoly (l.take n) = toPoly l := by
  apply Polynomial.ext
  intro i
  rw [coeff_toPoly, coeff_toPoly]
  by_cases hi : i < n
  · simp [List.getD_eq_getElem?_getD, hi]
  · have hzero : (toPoly l).coeff i = 0 := coeff_eq_zero_of_natDegree_lt (by omega)
    rw [← coeff_toPoly l, hzero, List.getD_eq_default]
    exact (List.length_take_le n l).trans (by omega)

section Division
variable [DecidableEq F]

def degree (l : List F) : ℕ := Nat.findGreatest (fun i => l.getD i 0 ≠ 0) (l.length - 1)

theorem degree_eq_natDegree (l : List F) : degree l = (toPoly l).natDegree := by
  rw [degree, Nat.findGreatest_eq_iff]
  simp only [← coeff_toPoly]
  refine ⟨?_, ?_, ?_⟩
  · rcases eq_or_ne l [] with rfl | hl
    · simp [toPoly]
    · have := natDegree_toPoly_lt hl
      omega
  · intro hne
    rw [coeff_natDegree]
    apply leadingCoeff_ne_zero.mpr
    intro hzero
    exact hne (by rw [hzero, natDegree_zero])
  · intro i hi _
    exact not_not_intro (coeff_eq_zero_of_natDegree_lt hi)

/-- One turn of a division by `b`, on a quotient and a rest. It takes the coefficients of the
quotient off the rest, not their products with those of `b`. -/
def divideAt (b : List F) (s : List F × List F) (i : ℕ) : List F × List F :=
  let quotient := s.1.modify i (· + s.2.getD (degree b + i) 0 / b.getD (degree b) 0)
  (quotient, (List.range (degree b + 1)).foldl
    (fun rest c => rest.modify (c + i) (· - quotient.getD c 0)) s.2)

def roundedQuotient (a b : List F) : List F :=
  let s := (List.range (degree a + 1 - degree b)).reverse.foldl (divideAt b)
    (List.replicate a.length 0, a)
  s.1.take (degree s.1 + 1)

theorem foldl_reverse_range_succ {σ : Type} (step : σ → ℕ → σ) (n : ℕ) (s : σ) :
    (List.range (n + 1)).reverse.foldl step s = (List.range n).reverse.foldl step (step s n) := by
  rw [List.range_succ, List.reverse_append, List.reverse_singleton, List.singleton_append,
    List.foldl_cons]

/-- The turns for lower coefficients leave the higher ones of the quotient as they are. -/
theorem getD_foldl_divideAt (b : List F) {i k : ℕ} (h : i ≤ k) (s : List F × List F) :
    ((List.range i).reverse.foldl (divideAt b) s).1.getD k 0 = s.1.getD k 0 := by
  induction i generalizing s with
  | zero => rfl
  | succ i ih =>
    have hne : i ≠ k := by omega
    rw [foldl_reverse_range_succ, ih (by omega)]
    simp [divideAt, List.getD_eq_getElem?_getD, hne]

theorem coeff_roundedQuotient (a b : List F) (k : ℕ) :
    (toPoly (roundedQuotient a b)).coeff k =
      ((List.range (degree a + 1 - degree b)).reverse.foldl (divideAt b)
        (List.replicate a.length 0, a)).1.getD k 0 := by
  rw [roundedQuotient, toPoly_take, coeff_toPoly]
  exact Nat.lt_succ_of_le (degree_eq_natDegree _).ge

theorem isRoundedQuotient (ha : a ≠ []) (b : List F) :
    IsRoundedQuotient (toPoly a) (toPoly b) (toPoly (roundedQuotient a b)) := by
  have habove {k : ℕ} (hk : degree a + 1 - degree b ≤ k) :
      (toPoly (roundedQuotient a b)).coeff k = 0 := by
    rw [coeff_roundedQuotient, getD_foldl_divideAt b hk, ← coeff_toPoly, toPoly_replicate_zero,
      coeff_zero]
  have hlength : degree a < a.length := degree_eq_natDegree a ▸ natDegree_toPoly_lt ha
  constructor
  · apply natDegree_le_iff_coeff_eq_zero.mpr
    intro k hk
    rw [← degree_eq_natDegree, ← degree_eq_natDegree] at hk
    exact habove (by omega)
  · intro hlt
    rw [← degree_eq_natDegree, ← degree_eq_natDegree] at hlt
    apply Polynomial.ext
    intro k
    exact habove (by omega)
  · intro hle
    rw [leadingCoeff, leadingCoeff, coeff_toPoly a, coeff_toPoly b]
    rw [← degree_eq_natDegree, ← degree_eq_natDegree] at hle ⊢
    obtain ⟨k, hk⟩ := Nat.exists_eq_add_of_le hle
    have hturns : degree a + 1 - degree b = k + 1 := by omega
    have hplace : degree a - degree b = k := by omega
    have hin : k < a.length := by omega
    rw [coeff_roundedQuotient, hturns, hplace, foldl_reverse_range_succ,
      getD_foldl_divideAt b le_rfl, hk]
    simp [divideAt, List.getD_eq_getElem?_getD, hin]

end Division

/-! ## The descent -/

/-- Takes the product of `a` and `q` off a list, as far as its degree is at most `n`. -/
def takeOff (n : ℕ) (a q l : List F) : List F :=
  combine (· - ·) (n + 1) (fun i => n + 1 - i) a q l

theorem takeOff_spec (hl : l.length = n + 1)
    (h : (toPoly a).natDegree + (toPoly q).natDegree ≤ n) :
    (takeOff n a q l).length = n + 1 ∧
      toPoly (takeOff n a q l) = toPoly l - toPoly a * toPoly q := by
  have hadds : Adds (n + 1) (takeOff n a q) (C (-1) * (toPoly a * toPoly q)) := by
    refine adds_combine (fun x y => by ring) (fun i hi j hj => by omega) (by omega) ?_
    intro i hi
    have hle : i ≤ (toPoly a).natDegree := le_natDegree_of_ne_zero hi
    omega
  refine ⟨hadds.length l hl, ?_⟩
  rw [hadds.poly l hl, C_neg, C_1, neg_one_mul, sub_eq_add_neg]

def start (m a : List F) : Descent (List F) :=
  ⟨1 :: List.replicate m.length 0, a ++ [0], List.replicate (m.length + 1) 0, m ++ [1]⟩

theorem map_start (m a : List F) : (start m a).map toPoly = .start (toPoly a) (modulus m) := by
  have hone : toPoly (1 :: List.replicate m.length 0) = (1 : F[X]) := by
    rw [toPoly, toPoly_replicate_zero]
    simp
  have hlow : toPoly (a ++ [0]) = toPoly a := by
    rw [toPoly_append]
    simp [toPoly]
  have hhigh : toPoly (m ++ [1]) = modulus m := by
    rw [toPoly_append, modulus, add_comm]
    simp [toPoly]
  simp only [Descent.map, start, Descent.start, hone, hlow, hhigh, toPoly_replicate_zero]

structure Sized (k : ℕ) (d : Descent (List F)) : Prop where
  lowFactor : d.lowFactor.length = k
  low : d.low.length = k
  highFactor : d.highFactor.length = k
  high : d.high.length = k

structure Fits (m a : List F) (d : Descent (List F)) : Prop where
  sized : Sized (m.length + 1) d
  sound : (d.map toPoly).Sound (toPoly a) (modulus m)
  bounded : (d.map toPoly).Bounded m.length

theorem fits_start (hm : m ≠ []) (ha : a.length = m.length)
    (h : IsCoprime (toPoly a) (modulus m)) : Fits m a (start m a) := by
  have hpos : 0 < m.length := List.length_pos_iff.mpr hm
  have hdegree : (toPoly a).natDegree < a.length :=
    natDegree_toPoly_lt (List.length_pos_iff.mp (by omega))
  refine ⟨by constructor <;> simp [start, ha], ?_, ?_⟩
  · rw [map_start]
    exact Descent.sound_start h
  · rw [map_start]
    constructor
    · simp [Descent.start, natDegree_modulus]
    · simp only [Descent.start, natDegree_zero]
      omega
    · simpa [Descent.start, natDegree_modulus] using hpos

section Turns
variable [DecidableEq F] {d : Descent (List F)}

def quotient (n : ℕ) (d : Descent (List F)) : List F :=
  let q := roundedQuotient d.high d.low
  q ++ List.replicate (n + 1 - q.length) 0

def turn (n : ℕ) (d : Descent (List F)) : Descent (List F) where
  lowFactor := takeOff n d.lowFactor (quotient n d) d.highFactor
  low := takeOff n d.low (quotient n d) d.high
  highFactor := d.lowFactor
  high := d.low

theorem isRoundedQuotient_quotient (n : ℕ) (h : d.high ≠ []) :
    IsRoundedQuotient (toPoly d.high) (toPoly d.low) (toPoly (quotient n d)) := by
  have hpadded : toPoly (quotient n d) = toPoly (roundedQuotient d.high d.low) := by
    rw [quotient, toPoly_append, toPoly_replicate_zero, mul_zero, add_zero]
  rw [hpadded]
  exact isRoundedQuotient h d.low

/-- A turn of the lists is a turn of the polynomials, since no product is too high for the lists. -/
theorem turn_spec (hd : Sized (n + 1) d) (hbounded : (d.map toPoly).Bounded n) :
    Sized (n + 1) (turn n d) ∧
      (turn n d).map toPoly = (d.map toPoly).next (toPoly (quotient n d)) := by
  have hlow := natDegree_toPoly_lt (List.ne_nil_of_length_eq_add_one hd.low)
  have hhigh := natDegree_toPoly_lt (List.ne_nil_of_length_eq_add_one hd.high)
  rw [hd.low] at hlow
  rw [hd.high] at hhigh
  have hle := (isRoundedQuotient_quotient n
    (List.ne_nil_of_length_eq_add_one hd.high)).natDegree_le
  have hroom : (toPoly d.lowFactor).natDegree + (toPoly d.high).natDegree ≤ n := hbounded.lowFactor
  obtain ⟨hfactorLength, hfactor⟩ := takeOff_spec (a := d.lowFactor) (q := quotient n d)
    hd.highFactor (by omega)
  obtain ⟨hlowLength, hlow⟩ := takeOff_spec (a := d.low) (q := quotient n d) hd.high (by omega)
  refine ⟨⟨hfactorLength, hlowLength, hd.lowFactor, hd.low⟩, ?_⟩
  simp only [turn, Descent.map, Descent.next, hfactor, hlow]

theorem Fits.turn (h : Fits m a d) (hlow : degree d.low ≠ 0) :
    Fits m a (turn m.length d) ∧
      ((Coefficients.turn m.length d).map toPoly).size < (d.map toPoly).size := by
  obtain ⟨hsized, hmap⟩ := turn_spec h.sized h.bounded
  have hpos : 0 < (toPoly d.low).natDegree := by
    rw [← degree_eq_natDegree]
    exact Nat.pos_of_ne_zero hlow
  have hrounded := isRoundedQuotient_quotient m.length
    (List.ne_nil_of_length_eq_add_one h.sized.high)
  obtain ⟨hbounded, hsize⟩ := h.bounded.next hrounded hpos
  rw [← hmap] at hbounded hsize
  refine ⟨⟨hsized, ?_, hbounded⟩, hsize⟩
  rw [hmap]
  exact h.sound.next _

/-- What the search for the inverse of `a` finds: the factor of the constant in which the descent
ends, divided by that constant. -/
def FindsInverse (m a e : List F) : Prop :=
  ∃ d, Loop (fun d => degree d.low ≠ 0) (fun d => some (turn m.length d)) (start m a) d ∧
    e = (d.lowFactor.take m.length).map (· / d.low.getD 0 0)

theorem FindsInverse.unique {e' : List F} (h : FindsInverse m a e) (h' : FindsInverse m a e') :
    e' = e := by
  obtain ⟨d, hloop, rfl⟩ := h
  obtain ⟨d', hloop', rfl⟩ := h'
  rw [hloop.unique hloop']

/-- Zero has no descent, and everything divided by it is zero. -/
theorem findsInverse_zero (h : toPoly a = 0) : FindsInverse m a (List.replicate m.length 0) := by
  have hlow : toPoly (start m a).low = 0 := (congrArg Descent.low (map_start m a)).trans h
  have hstop : degree (start m a).low = 0 := by
    rw [degree_eq_natDegree, hlow, natDegree_zero]
  have hconstant : (start m a).low.getD 0 0 = 0 := by
    rw [← coeff_toPoly, hlow, coeff_zero]
  refine ⟨start m a, .stop (decide_eq_false (not_not_intro hstop)), ?_⟩
  rw [hconstant]
  symm
  apply List.eq_replicate_iff.mpr
  constructor
  · simp [start]
  · simp

theorem exists_inverse (hm : m ≠ []) (ha : a.length = m.length)
    (h : IsCoprime (toPoly a) (modulus m)) :
    ∃ e, FindsInverse m a e ∧ e.length = m.length ∧ modulus m ∣ toPoly e * toPoly a - 1 := by
  have hbody (d : Descent (List F)) (hd : Fits m a d) (htest : decide (degree d.low ≠ 0) = true) :
      ∃ d', some (turn m.length d) = some d' ∧ Fits m a d' ∧
        (d'.map toPoly).size < (d.map toPoly).size :=
    ⟨_, rfl, hd.turn (of_decide_eq_true htest)⟩
  obtain ⟨d, hloop, hd, htest⟩ :=
    Loop.exists_of_invariant (fun d => (d.map toPoly).size) hbody (fits_start hm ha h)
  have hzero : (toPoly d.low).natDegree = 0 := by
    rw [← degree_eq_natDegree]
    exact not_not.mp (of_decide_eq_false htest)
  have hconstant : toPoly d.low = C (d.low.getD 0 0) := by
    rw [← coeff_toPoly]
    exact eq_C_of_natDegree_eq_zero hzero
  have hne : d.low.getD 0 0 ≠ 0 := by
    intro hnil
    rw [hnil, C_0] at hconstant
    have hunit : IsUnit (toPoly d.high) := hd.sound.isUnit_high hconstant
    have hhigh : 0 < (toPoly d.high).natDegree := hd.bounded.high
    have := natDegree_eq_zero_of_isUnit hunit
    omega
  have hfactor : (toPoly d.lowFactor).natDegree < m.length := by
    have hroom : (toPoly d.lowFactor).natDegree + (toPoly d.high).natDegree ≤ m.length :=
      hd.bounded.lowFactor
    have hhigh : 0 < (toPoly d.high).natDegree := hd.bounded.high
    omega
  refine ⟨_, ⟨d, hloop, rfl⟩, ?_, ?_⟩
  · rw [List.length_map, List.length_take, hd.sized.lowFactor]
    omega
  · simp only [div_eq_mul_inv]
    rw [toPoly_map_mul, toPoly_take hfactor]
    have hsound : modulus m ∣ toPoly d.lowFactor * toPoly a - toPoly d.low := hd.sound.low
    have hscaled := hsound.mul_right (C (d.low.getD 0 0)⁻¹)
    have hone : toPoly d.low * C (d.low.getD 0 0)⁻¹ = 1 := by
      rw [hconstant, ← C_mul, mul_inv_cancel₀ hne, C_1]
    rw [sub_mul, hone] at hscaled
    rwa [mul_right_comm]

end Turns

end Coefficients

end TapeAir
