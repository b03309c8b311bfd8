import Mathlib.Algebra.MvPolynomial.NoZeroDivisors
import TapeAir.Proofs.Poly.Lifting
/-! # The degree of polynomials

The degree is a bound on the exponents under which a coefficient stands, and the least one from `-1`
on. Sums can only lose such exponents. In a product the terms of the greatest exponents may cancel
one another, but not all of them do: the formal sums over a field have no zero divisors, and their
total degrees add up.
-/
namespace TapeAir

namespace Monomial
variable {n : ℕ}

theorem degree_eq_sum (m : Monomial n) : m.degree = m.toList.sum := by
  rw [degree, List.sum_eq_foldl, ← Vector.foldl_toList]

theorem sum_exponents (m : Monomial n) : (m.exponents.sum fun _ e => e) = m.degree := by
  rw [Finsupp.sum_fintype _ _ fun _ => rfl, degree_eq_sum, ← List.sum_ofFn]
  congr 1
  refine List.ext_getElem (by simp) fun i hi hi' => ?_
  simp [Poly.vector_get_eq]

theorem exponents_surjective : Function.Surjective (exponents : Monomial n → Fin n →₀ ℕ) := by
  intro k
  refine ⟨Vector.ofFn k, ?_⟩
  ext i
  simp [Poly.vector_get_eq]

end Monomial

/-- The greatest sum of the exponents of an entry; an empty dictionary has degree `-1`. -/
def Dictionary.degree {F : Type} (d : Dictionary F) : ℤ :=
  (d.map fun t => (t.1.sum : ℤ)).max?.getD (-1)

namespace Poly

section Bounds
variable {F : Type} [Zero F] {n : ℕ}

theorem foldl_max_le_iff {α : Type} (f : α → ℤ) (l : List α) (a b : ℤ) :
    l.foldl (fun d t => max d (f t)) a ≤ b ↔ a ≤ b ∧ ∀ t ∈ l, f t ≤ b := by
  induction l generalizing a with
  | nil => simp
  | cons t l ih =>
    rw [List.foldl_cons, ih, max_le_iff, List.forall_mem_cons, and_assoc]

theorem degree_le_iff {p : Poly F n} {b : ℤ} :
    p.degree ≤ b ↔ -1 ≤ b ∧ ∀ t ∈ p.terms, (t.1.degree : ℤ) ≤ b := foldl_max_le_iff _ _ _ _

@[simp] theorem degree_zero : (0 : Poly F n).degree = -1 := rfl

theorem neg_one_le_degree (p : Poly F n) : -1 ≤ p.degree := (degree_le_iff.mp le_rfl).1

theorem degree_le_of_mem {p : Poly F n} {t : Term F n} (h : t ∈ p.terms) :
    (t.1.degree : ℤ) ≤ p.degree := (degree_le_iff.mp le_rfl).2 t h

end Bounds

section Totals
variable {F : Type} [AddCommMonoid F] {n : ℕ} {p : Poly F n}

/-- The terms are those under whose exponents a total remains. -/
theorem degree_le_iff_total {b : ℤ} :
    p.degree ≤ b ↔ -1 ≤ b ∧ ∀ m, total m p.terms ≠ 0 → (m.degree : ℤ) ≤ b := by
  rw [degree_le_iff]
  refine and_congr_right fun _ => ?_
  constructor
  · intro h m hm
    obtain ⟨t, ht, rfl⟩ := List.mem_map.mp (p.trimmed.mem_keys_iff.mpr hm)
    exact h t ht
  · intro h t ht
    apply h
    exact p.trimmed.mem_keys_iff.mp (List.mem_map_of_mem ht)

theorem degree_le_of_total {m : Monomial n} (h : total m p.terms ≠ 0) :
    (m.degree : ℤ) ≤ p.degree := (degree_le_iff_total.mp le_rfl).2 m h

theorem Lists.degree_eq {arity : ℤ} {d : Dictionary F} (h : p.Lists arity d) :
    d.degree = p.degree := by
  have hsums : (d.map fun t => (t.1.sum : ℤ)).Perm (p.terms.map fun t => (t.1.degree : ℤ)) := by
    have hterms := h.perm.map fun t => (t.1.sum : ℤ)
    rw [dictionary, List.map_map] at hterms
    simpa only [Function.comp_def, ← Monomial.degree_eq_sum] using hterms
  rw [Dictionary.degree]
  cases hmax : (d.map fun t => (t.1.sum : ℤ)).max? with
  | none =>
    have hnil : p.terms = [] := by
      have hlength := hsums.length_eq
      rw [List.max?_eq_none_iff.mp hmax] at hlength
      simpa using hlength.symm
    rw [degree, hnil]
    rfl
  | some e =>
    obtain ⟨he, hle⟩ := List.max?_eq_some_iff.mp hmax
    obtain ⟨t, ht, rfl⟩ := List.mem_map.mp (hsums.mem_iff.mp he)
    apply le_antisymm
    · exact degree_le_of_mem ht
    · rw [degree_le_iff]
      refine ⟨by simp, fun u hu => ?_⟩
      exact hle _ (hsums.mem_iff.mpr (List.mem_map_of_mem hu))

end Totals

section Ring
variable {F : Type} [CommRing F] [DecidableEq F] {n : ℕ}

theorem total_add (m : Monomial n) (p q : Poly F n) :
    total m (p + q).terms = total m p.terms + total m q.terms := termsSum_add _ p q

theorem total_neg (m : Monomial n) (p : Poly F n) : total m (-p).terms = -total m p.terms :=
  (termsSum_ofTerms _ _).trans (termsSum_neg _ _)

theorem degree_add_le (p q : Poly F n) : (p + q).degree ≤ max p.degree q.degree := by
  rw [degree_le_iff_total]
  constructor
  · exact le_max_of_le_left p.neg_one_le_degree
  · intro m hm
    rw [total_add] at hm
    by_cases hp : total m p.terms = 0
    · have hq : total m q.terms ≠ 0 := by rwa [hp, zero_add] at hm
      exact le_max_of_le_right (degree_le_of_total hq)
    · exact le_max_of_le_left (degree_le_of_total hp)

theorem degree_neg_le (p : Poly F n) : (-p).degree ≤ p.degree := by
  rw [degree_le_iff_total]
  refine ⟨p.neg_one_le_degree, fun m hm => degree_le_of_total ?_⟩
  rwa [total_neg, neg_ne_zero] at hm

/-- A summand of the greater degree keeps its terms of that degree: it is the sum without the other
summand, which cannot bring them back. -/
theorem degree_add_of_lt {p q : Poly F n} (h : q.degree < p.degree) :
    (p + q).degree = p.degree := by
  apply le_antisymm
  · exact (degree_add_le p q).trans (max_le le_rfl h.le)
  · have hback : p.degree ≤ max (p + q).degree (-q).degree := by
      have hp : p + q + -q = p := by ring
      simpa only [hp] using degree_add_le (p + q) (-q)
    rcases le_max_iff.mp hback with hle | hle
    · exact hle
    · have := degree_neg_le q
      omega

theorem degree_add_of_ne {p q : Poly F n} (h : p.degree ≠ q.degree) :
    (p + q).degree = max p.degree q.degree := by
  rcases lt_or_gt_of_ne h with hlt | hlt
  · rw [add_comm, degree_add_of_lt hlt, max_eq_right hlt.le]
  · rw [degree_add_of_lt hlt, max_eq_left hlt.le]

omit [DecidableEq F] in
theorem degree_map {G : Type} [CommRing G] [DecidableEq G] {f : F →+* G}
    (hf : Function.Injective f) (p : Poly F n) : (p.map f).degree = p.degree := by
  rw [degree, terms_map hf, List.foldl_map]
  rfl

end Ring

section Domain
variable {F : Type} [CommRing F] {n : ℕ} {p q : Poly F n}

theorem expand_ne_zero (hp : p ≠ 0) : expand p ≠ 0 := by
  intro h
  exact hp (expand_injective (h.trans expand_zero.symm))

/-- The degree of a polynomial that is not zero is the total degree of its formal sum. -/
theorem degree_eq_totalDegree (hp : p ≠ 0) : p.degree = (expand p).totalDegree := by
  have hsupport (m : Monomial n) : m.exponents ∈ (expand p).support ↔ total m p.terms ≠ 0 := by
    rw [MvPolynomial.mem_support_iff, coeff_expand]
  apply le_antisymm
  · rw [degree_le_iff_total]
    refine ⟨by omega, fun m hm => ?_⟩
    rw [← Monomial.sum_exponents]
    exact Int.ofNat_le.mpr (MvPolynomial.le_totalDegree ((hsupport m).mpr hm))
  · have hne : (expand p).support.Nonempty := MvPolynomial.support_nonempty.mpr (expand_ne_zero hp)
    obtain ⟨k, hk, hgreatest⟩ := Finset.exists_mem_eq_sup _ hne fun k => k.sum fun _ e => e
    obtain ⟨m, rfl⟩ := Monomial.exponents_surjective k
    rw [MvPolynomial.totalDegree, hgreatest, Monomial.sum_exponents]
    exact degree_le_of_total ((hsupport m).mp hk)

variable [IsDomain F] [DecidableEq F]

instance : NoZeroDivisors (Poly F n) := expand_injective.noZeroDivisors expand expand_zero expand_mul

theorem degree_mul (hp : p ≠ 0) (hq : q ≠ 0) : (p * q).degree = p.degree + q.degree := by
  rw [degree_eq_totalDegree (mul_ne_zero hp hq), degree_eq_totalDegree hp,
    degree_eq_totalDegree hq, expand_mul,
    MvPolynomial.totalDegree_mul_of_isDomain (expand_ne_zero hp) (expand_ne_zero hq), Nat.cast_add]

end Domain

end Poly

namespace AnyPoly
variable {s : Shape}

/-- Degrees add up in products, and the greater one remains in sums. They can be read off any
dictionary that lists the polynomial. -/
theorem total_degree_laws (p q : s.Poly) :
    (∃ r : s.Poly, mul ⟨s, p⟩ ⟨s, q⟩ = .ok ⟨s, r⟩ ∧
      (p ≠ 0 → q ≠ 0 → r ≠ 0 ∧ degree ⟨s, r⟩ = degree ⟨s, p⟩ + degree ⟨s, q⟩) ∧
      (p = 0 ∨ q = 0 → r = 0 ∧ degree ⟨s, r⟩ = -1)) ∧
    (∃ r : s.Poly, add ⟨s, p⟩ ⟨s, q⟩ = .ok ⟨s, r⟩ ∧
      degree ⟨s, r⟩ ≤ max (degree ⟨s, p⟩) (degree ⟨s, q⟩) ∧
      (degree ⟨s, p⟩ ≠ degree ⟨s, q⟩ → degree ⟨s, r⟩ = max (degree ⟨s, p⟩) (degree ⟨s, q⟩))) ∧
    degree (lift ⟨s, p⟩) = degree ⟨s, p⟩ ∧
    ∀ d, p.Lists s.arity d → d.degree = degree ⟨s, p⟩ := by
  refine ⟨⟨p * q, mul_mk p q, ?_, ?_⟩, ⟨p + q, add_mk p q, ?_, ?_⟩, ?_, ?_⟩
  · intro hp hq
    exact ⟨mul_ne_zero hp hq, Poly.degree_mul hp hq⟩
  · intro hzero
    have hproduct : p * q = 0 := mul_eq_zero.mpr hzero
    exact ⟨hproduct, hproduct ▸ Poly.degree_zero⟩
  · exact Poly.degree_add_le p q
  · exact Poly.degree_add_of_ne
  · obtain ⟨l, n⟩ := s
    cases l with
    | base => exact Poly.degree_map Cubic.liftHom_injective p
    | ext => rfl
  · intro d hd
    exact hd.degree_eq

theorem difference_of_squares_degree :
    let s : Shape := ⟨.base, 2⟩
    let p : s.Poly := .X 0 + .X 1
    let q : s.Poly := .X 0 - .X 1
    let d : Dictionary Goldilocks := [([1, 0], 1), ([0, 1], 1)]
    p ≠ 0 ∧ q ≠ 0 ∧ p.Lists s.arity d ∧ d.degree = 1 ∧
      mul ⟨s, p⟩ ⟨s, q⟩ = .ok ⟨s, p * q⟩ ∧ degree ⟨s, p * q⟩ = 2 ∧
      degree ⟨s, p * q⟩ ≠ degree ⟨s, q⟩ ∧ degree ⟨s, p * q + q⟩ = 2 ∧
      degree (lift ⟨s, p⟩) = 1 := by
  intro s p q d
  have hp : p ≠ 0 := by decide +kernel
  have hq : q ≠ 0 := by decide +kernel
  have hd : p.Lists s.arity d := ⟨by decide +kernel, by simp [Dictionary.Fits, d, s]⟩
  have hpdegree : degree ⟨s, p⟩ = 1 := by decide +kernel
  have hqdegree : degree ⟨s, q⟩ = 1 := by decide +kernel
  obtain ⟨⟨r, hr, hproduct, -⟩, -, hlift, hdictionary⟩ := total_degree_laws p q
  obtain rfl : p * q = r := eq_of_heq (AnyPoly.mk.inj (Except.ok.inj ((mul_mk p q).symm.trans hr))).2
  obtain ⟨-, hdegree⟩ := hproduct hp hq
  rw [hpdegree, hqdegree] at hdegree
  have hne : degree ⟨s, p * q⟩ ≠ degree ⟨s, q⟩ := by
    rw [hdegree, hqdegree]
    decide
  obtain ⟨-, ⟨t, ht, -, hgreater⟩, -⟩ := total_degree_laws (p * q) q
  obtain rfl : p * q + q = t :=
    eq_of_heq (AnyPoly.mk.inj (Except.ok.inj ((add_mk (p * q) q).symm.trans ht))).2
  have hsum := hgreater hne
  rw [hdegree, hqdegree] at hsum
  exact ⟨hp, hq, hd, (hdictionary d hd).trans hpdegree, hr, hdegree, hne, hsum, hlift.trans hpdegree⟩

end AnyPoly

end TapeAir
