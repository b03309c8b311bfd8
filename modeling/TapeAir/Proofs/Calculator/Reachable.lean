import TapeAir.Calculator.Operator
import TapeAir.Proofs.Calculator.Polynomial
import TapeAir.Proofs.Constraint.Extended
import TapeAir.Proofs.Except
import TapeAir.Proofs.Poly.Dictionary
/-! # Polynomials that arise

A polynomial arises from terms, constants and variables by the operations of the calculator, with
scalars on either side. In all that arise the exponents are as many as the variables. This needs a
proof only where the number of variables is negative: there no exponents are as many, so what arises
is zero, and nothing but zero.
-/
namespace TapeAir

/-- The polynomial that takes part for an operand: the operand itself, or a constant. -/
inductive Value.Enters : Value → AnyPoly → Prop
  | poly (p : AnyPoly) : Enters (.poly p) p
  | constant {v : Value} {s : Shape} {p : AnyPoly} : v.toConstant s = .ok p → Enters v p

theorem Value.counted_eq_poly {v : Value} {p : AnyPoly} (h : v.counted = .poly p) :
    v = .poly p := by
  unfold counted at h
  split at h
  · cases h
  · cases h
  · exact h

namespace Operator
variable {op : Operator} {p : AnyPoly}

theorem ofScalars_ne_poly {s t : Scalar} : op.ofScalars s t ≠ .ok (.poly p) := by
  cases s <;> cases t <;> cases op <;>
    simp [ofScalars, ofInts, scaleCubic, Value.int, Value.base, Value.ext]

theorem ofSequences_ne_poly {u v : Value} : op.ofSequences u v ≠ .ok (.poly p) := by
  have htext (s : String) (z : ℤ) : repeatText s z ≠ .ok (.poly p) := by
    rw [repeatText]
    cases Repetition.textTimes? s.length z <;> nofun
  have hlist (vs : List Value) (z : ℤ) : repeatList vs z ≠ .ok (.poly p) := by
    rw [repeatList]
    cases Repetition.times? vs.length z <;> nofun
  unfold ofSequences
  split
  · nofun
  · nofun
  · exact htext _ _
  · exact htext _ _
  · exact hlist _ _
  · exact hlist _ _
  · nofun

/-- A polynomial results only from two that take part for the operands. -/
theorem apply_eq_poly {u v : Value} (h : op.apply u v = .ok (.poly p)) :
    ∃ a b, u.counted.Enters a ∧ v.counted.Enters b ∧ op.ofPolys a b = .ok (.poly p) := by
  rw [apply] at h
  generalize u.counted = u at h ⊢
  generalize v.counted = v at h ⊢
  split at h
  · exact absurd h ofScalars_ne_poly
  · exact ⟨_, _, .poly _, .poly _, h⟩
  · next v a _ =>
    by_cases hdiv : op = .div
    · rw [if_pos hdiv] at h
      cases h
    · rw [if_neg hdiv] at h
      obtain ⟨b, hb, hresult⟩ := Except.bind_eq_ok.mp h
      exact ⟨a, b, .poly a, .constant hb, hresult⟩
  · next b _ =>
    by_cases hrefused : op = .div ∨ !entersFromLeft u
    · rw [if_pos hrefused] at h
      cases h
    · rw [if_neg hrefused] at h
      obtain ⟨a, ha, hresult⟩ := Except.bind_eq_ok.mp h
      exact ⟨a, b, .constant ha, .poly b, hresult⟩
  · exact absurd h ofSequences_ne_poly

/-- Two polynomials that take part have one shape, and the result is their sum, difference or
product. -/
theorem ofPolys_eq_poly {a b : AnyPoly} (h : op.ofPolys a b = .ok (.poly p)) :
    ∃ (s : Shape) (q r : s.Poly), a = ⟨s, q⟩ ∧ b = ⟨s, r⟩ ∧
      (p = ⟨s, q + r⟩ ∨ p = ⟨s, q - r⟩ ∨ p = ⟨s, q * r⟩) := by
  have halign {f : a.shape.Poly → AnyPoly}
      (h : (((a.align b).map f).mapError Error.poly).map Value.poly = .ok (.poly p)) :
      ∃ r : a.shape.Poly, b = ⟨a.shape, r⟩ ∧ p = f r := by
    obtain ⟨_, h, hp⟩ := Except.map_eq_ok.mp h
    obtain ⟨r, hr, hf⟩ := Except.map_eq_ok.mp (Except.mapError_eq_ok.mp h)
    exact ⟨r, AnyPoly.align_eq_ok hr, (hf.trans (Value.poly.inj hp)).symm⟩
  cases op with
  | add =>
    obtain ⟨r, hb, hp⟩ := halign h
    exact ⟨a.shape, a.poly, r, rfl, hb, .inl hp⟩
  | sub =>
    obtain ⟨r, hb, hp⟩ := halign h
    exact ⟨a.shape, a.poly, r, rfl, hb, .inr (.inl hp)⟩
  | mul =>
    obtain ⟨r, hb, hp⟩ := halign h
    exact ⟨a.shape, a.poly, r, rfl, hb, .inr (.inr hp)⟩
  | div => cases h

end Operator

namespace AnyPoly

inductive Reachable : AnyPoly → Prop
  | terms {s : Shape} {terms : List (List ℕ × Value)} {p : AnyPoly} :
      Value.polynomial s terms = .ok p → Reachable p
  | zero (s : Shape) : Reachable (.zero s)
  | constant {arity : ℤ} {v : Value} {p : AnyPoly} :
      v.toOwnConstant arity = .ok p → Reachable p
  | indeterminate {s : Shape} {ps : List AnyPoly} {p : AnyPoly} :
      indeterminates s = .ok ps → p ∈ ps → Reachable p
  | negative {p : AnyPoly} : Reachable p → Reachable p.neg
  | operation {op : Operator} {u v : Value} {p : AnyPoly} :
      (∀ q, u = .poly q → Reachable q) → (∀ q, v = .poly q → Reachable q) →
      op.apply u v = .ok (.poly p) → Reachable p
  | lifted {p : AnyPoly} : Reachable p → Reachable p.lift

def Fits (p : AnyPoly) : Prop := p.poly.Lists p.shape.arity p.poly.dictionary

theorem fits_of_lists {s : Shape} {p : s.Poly} {d : Dictionary s.level.Carrier}
    (h : p.Lists s.arity d) : Fits ⟨s, p⟩ := ⟨.refl _, h.fits_dictionary⟩

theorem fits_zero (s : Shape) : Fits ⟨s, 0⟩ := ⟨.refl _, nofun⟩

theorem fits_of_nonneg {p : AnyPoly} (h : 0 ≤ p.shape.arity) : p.Fits := by
  refine ⟨.refl _, fun k hk => ?_⟩
  simp only [Poly.dictionary, List.map_map, List.mem_map, Function.comp_apply] at hk
  obtain ⟨t, -, rfl⟩ := hk
  rw [Vector.length_toList]
  exact Int.toNat_of_nonneg h

/-- Where the number of variables is negative, there is nothing but zero. -/
theorem Fits.eq_zero {s : Shape} {p : s.Poly} (h : Fits ⟨s, p⟩) (hs : s.arity < 0) : p = 0 := by
  have hnil : p.dictionary = [] := by
    refine List.eq_nil_iff_forall_not_mem.mpr fun t ht => ?_
    have hlength := h.fits t.1 (List.mem_map_of_mem ht)
    have hnonneg : (0 : ℤ) ≤ t.1.length := Int.natCast_nonneg _
    exact absurd (hlength ▸ hnonneg) (Int.not_le.mpr hs)
  exact Poly.ext (List.map_eq_nil_iff.mp hnil)

theorem fits_const {s : Shape} {c : s.level.Carrier} {p : AnyPoly} (h : const s c = .ok p) :
    p.Fits := by
  by_cases harity : 0 ≤ s.arity
  · rw [const_eq c harity] at h
    obtain ⟨-, -, rfl⟩ := Except.map_eq_ok.mp h
    exact fits_of_nonneg harity
  · rw [const, if_pos (Int.not_le.mp harity)] at h
    obtain ⟨-, -, hrefused⟩ := Except.bind_eq_ok.mp h
    cases hrefused

theorem fits_toConstant {s : Shape} {v : Value} {p : AnyPoly} (h : v.toConstant s = .ok p) :
    p.Fits := by
  obtain ⟨c, -, hconst⟩ := Except.bind_eq_ok.mp h
  exact fits_const (Except.mapError_eq_ok.mp hconst)

theorem fits_toOwnConstant {arity : ℤ} {v : Value} {p : AnyPoly}
    (h : v.toOwnConstant arity = .ok p) : p.Fits := by
  unfold Value.toOwnConstant at h
  split at h
  · exact fits_const (Except.mapError_eq_ok.mp h)
  · exact fits_const (Except.mapError_eq_ok.mp h)
  · obtain ⟨-, -, hrefused⟩ := Except.bind_eq_ok.mp h
    cases hrefused

theorem fits_polynomial {s : Shape} {terms : List (List ℕ × Value)} {p : AnyPoly}
    (h : Value.polynomial s terms = .ok p) : p.Fits := by
  obtain ⟨checked, hchecked, hp⟩ := Except.bind_eq_ok.mp h
  cases hp
  by_cases harity : 0 ≤ s.arity
  · exact fits_of_nonneg harity
  · cases hentries : entries terms with
    | nil =>
      rw [hentries] at hchecked
      cases hchecked
      exact fits_zero s
    | cons t ts =>
      rw [hentries, List.mapM_cons] at hchecked
      obtain ⟨_, hterm, -⟩ := Except.bind_eq_ok.mp hchecked
      obtain ⟨_, hexponents, -⟩ := Except.bind_eq_ok.mp hterm
      have hlength : (t.1.length : ℤ) ≠ s.arity := by omega
      rw [Shape.monomial, dif_neg hlength] at hexponents
      cases hexponents

theorem fits_indeterminate {s : Shape} {ps : List AnyPoly} {p : AnyPoly}
    (h : indeterminates s = .ok ps) (hp : p ∈ ps) : p.Fits := by
  have hps : (Poly.indeterminates : List s.Poly).map (fun p => ⟨s, p⟩) = ps := by
    rw [indeterminates] at h
    split at h
    · obtain ⟨_, -, hlisted⟩ := Except.bind_eq_ok.mp h
      exact Except.ok.inj hlisted
    · exact Except.ok.inj h
  obtain ⟨q, hq, rfl⟩ := List.mem_map.mp (hps ▸ hp)
  obtain ⟨i, hi, -⟩ := List.mem_map.mp hq
  have hnonneg : 0 ≤ s.arity := by
    have := List.mem_range.mp hi
    omega
  exact fits_of_nonneg hnonneg

theorem Fits.neg {p : AnyPoly} (h : p.Fits) : p.neg.Fits := by
  obtain ⟨_, -, hd⟩ := Poly.Lists.neg h
  exact fits_of_lists hd

theorem Fits.lift {p : AnyPoly} (h : p.Fits) : p.lift.Fits := by
  obtain ⟨⟨l, n⟩, p⟩ := p
  cases l with
  | base =>
    obtain ⟨_, -, hd⟩ := Poly.Lists.map Cubic.liftHom_injective h
    exact fits_of_lists hd
  | ext => exact h

theorem fits_ofPolys {op : Operator} {a b p : AnyPoly} (ha : a.Fits) (hb : b.Fits)
    (h : op.ofPolys a b = .ok (.poly p)) : p.Fits := by
  obtain ⟨s, q, r, rfl, rfl, rfl | rfl | rfl⟩ := Operator.ofPolys_eq_poly h
  · obtain ⟨_, -, hd⟩ := Poly.Lists.add ha hb
    exact fits_of_lists hd
  · obtain ⟨_, -, hd⟩ := Poly.Lists.sub ha hb
    exact fits_of_lists hd
  · obtain ⟨_, -, hd⟩ := Poly.Lists.mul ha hb
    exact fits_of_lists hd

theorem fits_apply {op : Operator} {u v : Value} {p : AnyPoly}
    (hu : ∀ q, u = .poly q → q.Fits) (hv : ∀ q, v = .poly q → q.Fits)
    (h : op.apply u v = .ok (.poly p)) : p.Fits := by
  have henters {v : Value} {a : AnyPoly} (hv : ∀ q, v = .poly q → q.Fits)
      (ha : v.counted.Enters a) : a.Fits := by
    generalize hcounted : v.counted = w at ha
    cases ha with
    | poly => exact hv a (Value.counted_eq_poly hcounted)
    | constant ha => exact fits_toConstant ha
  obtain ⟨a, b, ha, hb, hresult⟩ := Operator.apply_eq_poly h
  exact fits_ofPolys (henters hu ha) (henters hv hb) hresult

theorem Reachable.fits {p : AnyPoly} (h : p.Reachable) : p.Fits := by
  induction h with
  | terms h => exact fits_polynomial h
  | zero s => exact fits_zero s
  | constant h => exact fits_toOwnConstant h
  | indeterminate h hp => exact fits_indeterminate h hp
  | negative _ ih => exact ih.neg
  | operation _ _ h hu hv => exact fits_apply hu hv h
  | lifted _ ih => exact ih.lift

/-! ## All that is in canonical form arises -/

theorem enterTerm_new {α : Type} {es : List (List ℕ × α)} {k : List ℕ} (h : k ∉ es.map Prod.fst)
    (c : α) : enterTerm es k c = es ++ [(k, c)] := by
  rw [enterTerm, if_neg]
  simpa using h

theorem foldl_enterTerm {α : Type} {es ts : List (List ℕ × α)}
    (h : ((es ++ ts).map Prod.fst).Nodup) :
    ts.foldl (fun es t => enterTerm es t.1 t.2) es = es ++ ts := by
  induction ts generalizing es with
  | nil => simp
  | cons t ts ih =>
    have hnew : t.1 ∉ es.map Prod.fst := by
      rw [List.map_append, List.nodup_append] at h
      exact fun hmem => h.2.2 t.1 hmem t.1 (List.mem_map_of_mem List.mem_cons_self) rfl
    rw [List.append_cons] at h ⊢
    rw [List.foldl_cons, enterTerm_new hnew]
    exact ih h

theorem toTerm_ofLevel {s : Shape} {t : Term s.level.Carrier s.arity.toNat}
    (h : (t.1.toList.length : ℤ) = s.arity) :
    Value.toTerm s t.1.toList (.scalar (.ofLevel s.level t.2)) = .ok t := by
  have hlevel (l : Level) (c : l.Carrier) : (Value.scalar (.ofLevel l c)).toLevel l = .ok c := by
    cases l <;> rfl
  rw [Value.toTerm, Shape.monomial, dif_pos h, hlevel]
  rfl

theorem polynomial_dictionary {s : Shape} {p : s.Poly} (h : Fits ⟨s, p⟩) :
    Value.polynomial s (p.dictionary.map fun t => (t.1, .scalar (.ofLevel s.level t.2))) =
      .ok ⟨s, p⟩ := by
  have hentries : entries (p.dictionary.map fun t => (t.1, Value.scalar (.ofLevel s.level t.2))) =
      p.terms.map fun t => (t.1.toList, .scalar (.ofLevel s.level t.2)) := by
    rw [entries, foldl_enterTerm, List.nil_append, Poly.dictionary, List.map_map]
    · rfl
    · simpa [Function.comp_def] using p.trimmed_dictionary.keys
  have hterms (ts : List (Term s.level.Carrier s.arity.toNat)) (hts : ts ⊆ p.terms) :
      (ts.map fun t => (t.1.toList, Value.scalar (.ofLevel s.level t.2))).mapM
        (fun e => Value.toTerm s e.1 e.2) = .ok ts := by
    induction ts with
    | nil => rfl
    | cons t ts ih =>
      obtain ⟨ht, hts⟩ := List.cons_subset.mp hts
      have hlength : (t.1.toList.length : ℤ) = s.arity :=
        h.fits _ (List.mem_map_of_mem (List.mem_map_of_mem ht))
      rw [List.map_cons, List.mapM_cons, toTerm_ofLevel hlength, ih hts]
      rfl
  have hcollected : Poly.ofTerms p.terms = p := Poly.ext (Poly.terms_ofTerms p.sorted p.nonzero)
  rw [Value.polynomial, hentries, hterms _ (List.Subset.refl _)]
  exact congrArg (fun q => Except.ok (AnyPoly.mk s q)) hcollected

theorem reachable_iff_fits {p : AnyPoly} : p.Reachable ↔ p.Fits :=
  ⟨Reachable.fits, fun h => .terms (polynomial_dictionary h)⟩

theorem reachable_of_nonneg {s : Shape} (h : 0 ≤ s.arity) (p : s.Poly) : Reachable ⟨s, p⟩ :=
  reachable_iff_fits.mpr (fits_of_nonneg h)

end AnyPoly

end TapeAir
