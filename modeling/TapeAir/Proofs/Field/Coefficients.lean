import Mathlib.Algebra.Polynomial.Div
import Mathlib.Data.List.GetD
import TapeAir.Proofs.Loop
/-! # Polynomials as lists of coefficients

A list holds the coefficients of a polynomial, the lowest first, and may end in zeros. Nested loops
add the products of the coefficients of two lists to a third one. A product is reduced modulo a monic
polynomial, given by its coefficients below the leading one: each turn takes off the top coefficient
and, with it, a multiple of the modulus.
-/
namespace TapeAir.Coefficients

open Polynomial

variable {F : Type} [Field F] {l a b m e : List F}

noncomputable def toPoly : List F → F[X]
  | [] => 0
  | x :: l => C x + X * toPoly l

theorem coeff_toPoly (l : List F) (i : ℕ) : (toPoly l).coeff i = l.getD i 0 := by
  induction l generalizing i with
  | nil => rfl
  | cons x l ih =>
    cases i with
    | zero => simp [toPoly]
    | succ i => simp [toPoly, ih]

theorem toPoly_injective_of_length (hlength : a.length = b.length) (h : toPoly a = toPoly b) :
    a = b := by
  apply List.ext_getElem hlength
  intro i hi hi'
  have hcoeff := congrArg (·.coeff i) h
  simpa only [coeff_toPoly, List.getD_eq_getElem _ _ hi, List.getD_eq_getElem _ _ hi'] using hcoeff

theorem toPoly_replicate_zero (n : ℕ) : toPoly (List.replicate n (0 : F)) = 0 := by
  induction n with
  | zero => rfl
  | succ n ih => rw [List.replicate_succ, toPoly, ih, C_0, mul_zero, add_zero]

theorem toPoly_append (l l' : List F) : toPoly (l ++ l') = toPoly l + X ^ l.length * toPoly l' := by
  induction l with
  | nil => simp [toPoly]
  | cons x l ih =>
    rw [List.cons_append, toPoly, toPoly, ih, List.length_cons, pow_succ']
    ring

theorem toPoly_map_mul (l : List F) (c : F) : toPoly (l.map (· * c)) = toPoly l * C c := by
  induction l with
  | nil => simp [toPoly]
  | cons x l ih =>
    rw [List.map_cons, toPoly, toPoly, ih, C_mul]
    ring

theorem degree_toPoly_lt (l : List F) : (toPoly l).degree < l.length := by
  apply (degree_lt_iff_coeff_zero _ _).mpr
  intro i hi
  rw [coeff_toPoly, List.getD_eq_default _ _ hi]

theorem natDegree_toPoly_lt (h : l ≠ []) : (toPoly l).natDegree < l.length := by
  rcases eq_or_ne (toPoly l) 0 with hzero | hne
  · rw [hzero, natDegree_zero]
    exact List.length_pos_iff.mpr h
  · exact (natDegree_lt_iff_degree_lt hne).mpr (degree_toPoly_lt l)

/-! ## Loops that add a polynomial -/

/-- Every list of length `k` keeps its length and comes to stand for a sum with `p`. -/
structure Adds (k : ℕ) (f : List F → List F) (p : F[X]) : Prop where
  length : ∀ l, l.length = k → (f l).length = k
  poly : ∀ l, l.length = k → toPoly (f l) = toPoly l + p

theorem adds_modify {k i : ℕ} {f : F → F} {c : F} (hi : i < k) (hf : ∀ x, f x = x + c) :
    Adds k (·.modify i f) (monomial i c) where
  length l h := by rw [List.length_modify, h]
  poly l h := by
    apply Polynomial.ext
    intro j
    rw [coeff_add, coeff_toPoly, coeff_toPoly, coeff_monomial]
    rw [List.getD_eq_getElem?_getD, List.getD_eq_getElem?_getD, List.getElem?_modify]
    by_cases hij : i = j
    · subst hij
      have hl : i < l.length := h ▸ hi
      simp [hl, hf]
    · simp [hij]

theorem adds_range {k n : ℕ} {step : ℕ → List F → List F} {p : ℕ → F[X]}
    (h : ∀ i < n, Adds k (step i) (p i)) :
    Adds k (fun l => (List.range n).foldl (fun l i => step i l) l) (∑ i ∈ Finset.range n, p i) := by
  induction n with
  | zero => exact ⟨fun _ hl => hl, fun _ _ => by simp⟩
  | succ n ih =>
    have hfirst := ih fun i hi => h i (by omega)
    have hlast := h n n.lt_succ_self
    constructor
    · intro l hl
      rw [List.range_succ, List.foldl_append]
      exact hlast.length _ (hfirst.length l hl)
    · intro l hl
      rw [List.range_succ, List.foldl_append, Finset.sum_range_succ, ← add_assoc,
        ← hfirst.poly l hl]
      exact hlast.poly _ (hfirst.length l hl)

/-- Combines the coefficient of `X ^ (i + j)` with the product of coefficient `i` of `a` and
coefficient `j` of `b`, for every row `i` and every `j` in its width. -/
def combine (op : F → F → F) (rows : ℕ) (width : ℕ → ℕ) (a b : List F) (l : List F) : List F :=
  (List.range rows).foldl (fun l i =>
    (List.range (width i)).foldl (fun l j =>
      l.modify (i + j) fun x => op x (a.getD i 0 * b.getD j 0)) l) l

theorem sum_products {p q : F[X]} {rows : ℕ} {width : ℕ → ℕ} (hp : p.natDegree < rows)
    (hq : ∀ i, p.coeff i ≠ 0 → q.natDegree < width i) :
    ∑ i ∈ Finset.range rows, ∑ j ∈ Finset.range (width i),
      monomial (i + j) (p.coeff i * q.coeff j) = p * q := by
  have hrow (i : ℕ) : ∑ j ∈ Finset.range (width i), monomial (i + j) (p.coeff i * q.coeff j) =
      monomial i (p.coeff i) * q := by
    by_cases hi : p.coeff i = 0
    · simp [hi]
    · conv_rhs => rw [as_sum_range' q _ (hq i hi), Finset.mul_sum]
      simp only [monomial_mul_monomial]
  simp only [hrow]
  rw [← Finset.sum_mul, ← as_sum_range' p rows hp]

/-- If no product is left out, the loops add or take off the product of the two polynomials. -/
theorem adds_combine {op : F → F → F} {s : F} {k rows : ℕ} {width : ℕ → ℕ}
    (hop : ∀ x y, op x y = x + s * y) (hk : ∀ i < rows, ∀ j < width i, i + j < k)
    (ha : (toPoly a).natDegree < rows)
    (hb : ∀ i, (toPoly a).coeff i ≠ 0 → (toPoly b).natDegree < width i) :
    Adds k (combine op rows width a b) (C s * (toPoly a * toPoly b)) := by
  rw [← sum_products ha hb, Finset.mul_sum]
  refine adds_range fun i hi => ?_
  rw [Finset.mul_sum]
  refine adds_range fun j hj => ?_
  rw [C_mul_monomial, coeff_toPoly, coeff_toPoly]
  exact adds_modify (hk i hi j hj) fun x => hop x _

/-! ## Products modulo a monic polynomial -/

noncomputable def modulus (m : List F) : F[X] := X ^ m.length + toPoly m

theorem monic_modulus (m : List F) : (modulus m).Monic :=
  monic_X_pow_add (degree_toPoly_lt m)

theorem natDegree_modulus (m : List F) : (modulus m).natDegree = m.length := by
  have hlt : (toPoly m).degree < (X ^ m.length : F[X]).degree := by
    rw [degree_X_pow]
    exact degree_toPoly_lt m
  rw [modulus, natDegree_add_eq_left_of_degree_lt hlt, natDegree_X_pow]

theorem toPoly_eq_modByMonic {p : F[X]} (hlength : e.length = m.length)
    (h : modulus m ∣ p - toPoly e) : toPoly e = p %ₘ modulus m := by
  have hdegree : (toPoly e).degree < (modulus m).degree := by
    rw [degree_eq_natDegree (monic_modulus m).ne_zero, natDegree_modulus, ← hlength]
    exact degree_toPoly_lt e
  rw [modByMonic_eq_of_dvd_sub (monic_modulus m) h]
  exact ((modByMonic_eq_self_iff (monic_modulus m)).mpr hdegree).symm

def schoolbook (n : ℕ) (a b : List F) : List F :=
  combine (· + ·) n (fun _ => n) a b (List.replicate (2 * n - 1) 0)

theorem schoolbook_spec {n : ℕ} (hn : 0 < n) (ha : a.length = n) (hb : b.length = n) :
    (schoolbook n a b).length = 2 * n - 1 ∧ toPoly (schoolbook n a b) = toPoly a * toPoly b := by
  have hdegree {l : List F} (hl : l.length = n) : (toPoly l).natDegree < n :=
    hl ▸ natDegree_toPoly_lt (List.length_pos_iff.mp (by omega))
  have hadds : Adds (2 * n - 1) (combine (· + ·) n (fun _ => n) a b)
      (C 1 * (toPoly a * toPoly b)) :=
    adds_combine (fun x y => by rw [one_mul]) (fun i hi j hj => by omega) (hdegree ha)
      fun _ _ => hdegree hb
  have hlength : (List.replicate (2 * n - 1) (0 : F)).length = 2 * n - 1 := List.length_replicate
  refine ⟨hadds.length _ hlength, ?_⟩
  rw [schoolbook, hadds.poly _ hlength, toPoly_replicate_zero, C_1, one_mul, zero_add]

/-- Takes off the top coefficient and that multiple of the modulus which it leads. -/
def reduceTop (m l : List F) : List F :=
  let top := l.getLastD 0
  (List.range m.length).foldl (fun l' i =>
    l'.modify (l.length - m.length - 1 + i) (· - top * m.getD i 0)) l.dropLast

theorem toPoly_eq_sum (l : List F) :
    toPoly l = ∑ i ∈ Finset.range l.length, monomial i (l.getD i 0) := by
  rcases eq_or_ne l [] with rfl | hl
  · rfl
  · simp only [← coeff_toPoly]
    exact as_sum_range' _ _ (natDegree_toPoly_lt hl)

theorem reduceTop_spec (h : m.length < l.length) :
    (reduceTop m l).length = l.length - 1 ∧ modulus m ∣ toPoly l - toPoly (reduceTop m l) := by
  obtain rfl | ⟨l, top, rfl⟩ := List.eq_nil_or_concat' l
  · simp at h
  obtain ⟨d, hd⟩ : ∃ d, l.length = d + m.length := Nat.exists_eq_add_of_le' (by simpa using h)
  have hadds : Adds l.length
      (fun l' => (List.range m.length).foldl
        (fun l' i => l'.modify (d + i) (· - top * m.getD i 0)) l')
      (∑ i ∈ Finset.range m.length, monomial (d + i) (-(top * m.getD i 0))) :=
    adds_range fun i hi => adds_modify (by omega) fun x => sub_eq_add_neg x _
  have hsum : ∑ i ∈ Finset.range m.length, monomial (d + i) (-(top * m.getD i 0)) =
      -(C top * X ^ d * toPoly m) := by
    rw [toPoly_eq_sum m, C_mul_X_pow_eq_monomial, Finset.mul_sum, ← Finset.sum_neg_distrib]
    simp only [monomial_mul_monomial, map_neg]
  have hreduce : reduceTop m (l ++ [top]) = (List.range m.length).foldl
      (fun l' i => l'.modify (d + i) (· - top * m.getD i 0)) l := by
    have hplace : (l ++ [top]).length - m.length - 1 = d := by
      rw [List.length_append, List.length_singleton]
      omega
    rw [reduceTop, hplace, List.getLastD_concat, List.dropLast_concat]
  rw [hreduce]
  constructor
  · rw [hadds.length l rfl, List.length_append, List.length_singleton, Nat.add_sub_cancel]
  · refine ⟨C top * X ^ d, ?_⟩
    rw [hadds.poly l rfl, hsum, toPoly_append, toPoly, toPoly, modulus, hd, pow_add]
    ring

/-- What the product of `a` and `b` is: their schoolbook product, reduced from the top until it has
no more coefficients than the modulus has below its leading one. -/
def IsProduct (m a b e : List F) : Prop :=
  Loop (fun l => m.length < l.length) (fun l => some (reduceTop m l)) (schoolbook m.length a b) e

theorem exists_product (hm : m ≠ []) (ha : a.length = m.length) (hb : b.length = m.length) :
    ∃ e, IsProduct m a b e ∧ e.length = m.length ∧
      toPoly e = toPoly a * toPoly b %ₘ modulus m := by
  let Inv (l : List F) : Prop := m.length ≤ l.length ∧ modulus m ∣ toPoly a * toPoly b - toPoly l
  have hbody (l : List F) (hl : Inv l) (htest : decide (m.length < l.length) = true) :
      ∃ l', some (reduceTop m l) = some l' ∧ Inv l' ∧ l'.length < l.length := by
    have hlt : m.length < l.length := of_decide_eq_true htest
    obtain ⟨hlength, hdvd⟩ := reduceTop_spec hlt
    refine ⟨_, rfl, ⟨by omega, ?_⟩, by omega⟩
    rw [← sub_add_sub_cancel _ (toPoly l)]
    exact dvd_add hl.2 hdvd
  have hpos : 0 < m.length := List.length_pos_iff.mpr hm
  obtain ⟨hlength, hpoly⟩ := schoolbook_spec hpos ha hb
  have hstart : Inv (schoolbook m.length a b) := ⟨by omega, by rw [hpoly, sub_self]; exact dvd_zero _⟩
  obtain ⟨e, hloop, ⟨hle, hdvd⟩, htest⟩ := Loop.exists_of_invariant List.length hbody hstart
  have hnlt : ¬m.length < e.length := of_decide_eq_false htest
  have hdone : e.length = m.length := by omega
  exact ⟨e, hloop, hdone, toPoly_eq_modByMonic hdone hdvd⟩

end TapeAir.Coefficients
