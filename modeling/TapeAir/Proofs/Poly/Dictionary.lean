import TapeAir.Poly.Shaped
import TapeAir.Proofs.Poly.Collection
import TapeAir.Proofs.Poly.Mapping
/-! # Polynomials in dictionaries

A dictionary holds coefficients under lists of exponents, in the order in which these were entered
first. Sums and products are entered term by term. A coefficient that becomes zero stays where it is
until the dictionary is complete, and only then are the exponents counted and the zeros dropped.
Dictionaries that list the terms of canonical polynomials, in any order, list those of their sum,
difference, product or negative after the operation, and none of these is refused.
-/
namespace TapeAir

abbrev Dictionary (F : Type) := List (List ℕ × F)

namespace Dictionary

section Operations
variable {F : Type} [Zero F] [Add F] [Neg F] [Mul F] [DecidableEq F]

def enter (k : List ℕ) (c : F) : Dictionary F → Dictionary F
  | [] => [(k, c)]
  | (j, b) :: rest => if j = k then (j, b + c) :: rest else (j, b) :: enter k c rest

def enterAll (d : Dictionary F) (ts : List (List ℕ × F)) : Dictionary F :=
  ts.foldl (fun d t => enter t.1 t.2 d) d

/-- Drops the zeros, unless there are exponents that are not as many as the variables. -/
def check (arity : ℤ) (d : Dictionary F) : Except PolyError (Dictionary F) :=
  match d.find? fun t => (t.1.length : ℤ) ≠ arity with
  | some t => .error (.exponentCount t.1.length arity)
  | none => .ok (d.filter fun t => t.2 ≠ 0)

def const (arity : ℤ) (c : F) : Except PolyError (Dictionary F) :=
  check arity [(List.replicate arity.toNat 0, c)]

def add (arity : ℤ) (d e : Dictionary F) : Except PolyError (Dictionary F) :=
  check arity (enterAll d e)

def mapCoefficients {G : Type} (f : G → F) (arity : ℤ) (d : Dictionary G) :
    Except PolyError (Dictionary F) := check arity (d.map fun t => (t.1, f t.2))

def neg (arity : ℤ) (d : Dictionary F) : Except PolyError (Dictionary F) :=
  mapCoefficients Neg.neg arity d

def sub (arity : ℤ) (d e : Dictionary F) : Except PolyError (Dictionary F) := do
  add arity d (← neg arity e)

def products (d e : Dictionary F) : List (List ℕ × F) :=
  d.flatMap fun t => e.map fun u => (List.zipWith (· + ·) t.1 u.1, t.2 * u.2)

def mul (arity : ℤ) (d e : Dictionary F) : Except PolyError (Dictionary F) :=
  check arity (enterAll [] (products d e))

def agree (d e : Dictionary F) : Bool :=
  d.all (fun t => e.any fun u => u.1 == t.1) && e.all (fun u => d.any fun t => t.1 == u.1) &&
    d.all fun t => d.lookup t.1 == e.lookup t.1

end Operations

section Entering
variable {F A : Type} [AddCommMonoid F] [AddCommMonoid A] (φ : List ℕ → F →+ A)

theorem termsSum_enter (k : List ℕ) (c : F) (d : Dictionary F) :
    termsSum φ (enter k c d) = termsSum φ d + φ k c := by
  induction d with
  | nil => simp [enter]
  | cons t d ih =>
    by_cases hk : t.1 = k
    · simp only [enter, hk, if_true, termsSum_cons, map_add]
      exact add_right_comm _ _ _
    · simp only [enter, hk, if_false, termsSum_cons, ih, add_assoc]

theorem termsSum_enterAll (d : Dictionary F) (ts : List (List ℕ × F)) :
    termsSum φ (enterAll d ts) = termsSum φ d + termsSum φ ts := by
  induction ts generalizing d with
  | nil => simp [enterAll]
  | cons t ts ih =>
    have hcons : enterAll d (t :: ts) = enterAll (enter t.1 t.2 d) ts := rfl
    rw [hcons, ih, termsSum_enter, termsSum_cons, add_assoc]

theorem mem_keys_enter {j k : List ℕ} {c : F} {d : Dictionary F} :
    j ∈ (enter k c d).map Prod.fst ↔ j = k ∨ j ∈ d.map Prod.fst := by
  induction d with
  | nil => simp [enter]
  | cons t d ih =>
    by_cases hk : t.1 = k
    · simp [enter, hk]
    · simp only [enter, hk, if_false, List.map_cons, List.mem_cons, ih]
      exact or_left_comm

theorem keys_enter_nodup (k : List ℕ) (c : F) {d : Dictionary F} (h : (d.map Prod.fst).Nodup) :
    ((enter k c d).map Prod.fst).Nodup := by
  induction d with
  | nil => simp [enter]
  | cons t d ih =>
    obtain ⟨hfresh, hrest⟩ := List.nodup_cons.mp h
    by_cases hk : t.1 = k
    · simpa [enter, hk] using h
    · have hnew : t.1 ∉ (enter k c d).map Prod.fst := by
        rw [mem_keys_enter, not_or]
        exact ⟨hk, hfresh⟩
      rw [enter, if_neg hk]
      exact List.nodup_cons.mpr ⟨hnew, ih hrest⟩

theorem mem_keys_enterAll {k : List ℕ} {d : Dictionary F} {ts : List (List ℕ × F)} :
    k ∈ (enterAll d ts).map Prod.fst ↔ k ∈ d.map Prod.fst ∨ k ∈ ts.map Prod.fst := by
  induction ts generalizing d with
  | nil => simp [enterAll]
  | cons t ts ih =>
    have hcons : enterAll d (t :: ts) = enterAll (enter t.1 t.2 d) ts := rfl
    rw [hcons, ih, mem_keys_enter, List.map_cons, List.mem_cons, or_assoc, or_left_comm]

theorem keys_enterAll_nodup {d : Dictionary F} (ts : List (List ℕ × F))
    (h : (d.map Prod.fst).Nodup) : ((enterAll d ts).map Prod.fst).Nodup := by
  induction ts generalizing d with
  | nil => exact h
  | cons t ts ih => exact ih (keys_enter_nodup t.1 t.2 h)

end Entering

section Checking
variable {F : Type} [AddCommMonoid F] [DecidableEq F] {arity : ℤ} {d : Dictionary F}

def Fits (arity : ℤ) (ts : List (List ℕ × F)) : Prop :=
  ∀ k ∈ ts.map Prod.fst, (k.length : ℤ) = arity

theorem check_eq_ok (h : Fits arity d) : check arity d = .ok (d.filter fun t => t.2 ≠ 0) := by
  have hnone : d.find? (fun t => (t.1.length : ℤ) ≠ arity) = none := by
    rw [List.find?_eq_none]
    intro t ht
    simpa using h t.1 (List.mem_map_of_mem ht)
  rw [check, hnone]

theorem trimmed_filter (h : (d.map Prod.fst).Nodup) : Trimmed (d.filter fun t => t.2 ≠ 0) where
  keys := h.sublist (List.filter_sublist.map _)
  nonzero _ ht := of_decide_eq_true (List.mem_filter.mp ht).2

end Checking

end Dictionary

namespace Poly

open Dictionary

section Listing
variable {F : Type} {n : ℕ}

def dictionary [Zero F] (p : Poly F n) : Dictionary F := p.terms.map fun t => (t.1.toList, t.2)

/-- The entries of a dictionary for `arity` variables are a polynomial's terms, in any order. -/
structure Lists [Zero F] (arity : ℤ) (d : Dictionary F) (p : Poly F n) : Prop where
  perm : d.Perm p.dictionary
  fits : Fits arity d

variable [AddCommMonoid F]

theorem termsSum_dictionary {A : Type} [AddCommMonoid A] (φ : List ℕ → F →+ A) (p : Poly F n) :
    termsSum φ p.dictionary = termsSum (fun m => φ m.toList) p.terms := termsSum_map φ _ _

theorem trimmed_dictionary (p : Poly F n) : Trimmed p.dictionary where
  keys := by
    have hkeys : p.dictionary.map Prod.fst = (p.terms.map Prod.fst).map Vector.toList := by
      simp [dictionary]
    rw [hkeys]
    exact p.keys_nodup.map fun _ _ => Vector.toList_inj.mp
  nonzero := List.forall_mem_map.mpr p.nonzero

theorem total_dictionary (p : Poly F n) (m : Monomial n) :
    total m.toList p.dictionary = total m p.terms := by
  rw [total, termsSum_dictionary]
  refine congrArg (termsSum · p.terms) (funext fun k => ?_)
  simp only [coefficientAt, Vector.toList_inj]

theorem eq_iff_total_dictionary {p q : Poly F n} :
    p = q ↔ ∀ k, total k p.dictionary = total k q.dictionary := by
  refine ⟨fun h k => h ▸ rfl, fun h => eq_iff_total.mpr fun m => ?_⟩
  rw [← total_dictionary, ← total_dictionary, h]

variable {arity : ℤ} {d : Dictionary F} {p : Poly F n}

theorem Lists.trimmed (h : Lists arity d p) : Trimmed d where
  keys := (h.perm.map _).nodup_iff.mpr p.trimmed_dictionary.keys
  nonzero t ht := p.trimmed_dictionary.nonzero t (h.perm.mem_iff.mp ht)

theorem Lists.total_eq (h : Lists arity d p) (k : List ℕ) :
    total k d = total k p.dictionary := termsSum_perm _ h.perm

omit [AddCommMonoid F] in
theorem Lists.fits_dictionary [Zero F] {p : Poly F n} (h : Lists arity d p) :
    Fits arity p.dictionary := fun k hk => h.fits k ((h.perm.map Prod.fst).mem_iff.mpr hk)

/-- A complete dictionary with the right totals passes the check, and then lists the polynomial. -/
theorem exists_check [DecidableEq F] (hfits : Fits arity d) (hkeys : (d.map Prod.fst).Nodup)
    (htotal : ∀ k, total k d = total k p.dictionary) :
    ∃ f, check arity d = .ok f ∧ Lists arity f p := by
  refine ⟨_, check_eq_ok hfits, ⟨?_, fun k hk => hfits k ?_⟩⟩
  · rw [(trimmed_filter hkeys).perm_iff p.trimmed_dictionary]
    intro k
    rw [total, termsSum_filter]
    exact htotal k
  · exact (List.filter_sublist.map Prod.fst).subset hk

end Listing

section Operations
variable {F : Type} [CommRing F] [DecidableEq F] {n : ℕ} {arity : ℤ} {p q : Poly F n}
variable {d e : Dictionary F}

theorem exists_const (h : (n : ℤ) = arity) (c : F) :
    ∃ f, Dictionary.const arity c = .ok f ∧ Lists arity f (const c : Poly F n) := by
  subst h
  have hunit : (Monomial.unit : Monomial n).toList = List.replicate n 0 := Vector.toList_replicate
  refine exists_check ?_ (List.nodup_singleton _) fun k => ?_
  · simp [Fits]
  · rw [Int.toNat_natCast, ← hunit, total, total, termsSum_dictionary]
    exact (termsSum_ofTerms (fun m => coefficientAt k m.toList) [(Monomial.unit, c)]).symm

theorem Lists.add (hp : Lists arity d p) (hq : Lists arity e q) :
    ∃ f, Dictionary.add arity d e = .ok f ∧ Lists arity f (p + q) := by
  refine exists_check ?_ (keys_enterAll_nodup e hp.trimmed.keys) fun k => ?_
  · exact fun k hk => (mem_keys_enterAll.mp hk).elim (hp.fits k) (hq.fits k)
  · calc total k (enterAll d e) = total k d + total k e := termsSum_enterAll _ d e
      _ = total k p.dictionary + total k q.dictionary := by rw [hp.total_eq, hq.total_eq]
      _ = total k (p + q).dictionary := by
        simp only [total, termsSum_dictionary, termsSum_add]

theorem Lists.neg (hp : Lists arity d p) :
    ∃ f, Dictionary.neg arity d = .ok f ∧ Lists arity f (-p) := by
  have hkeys : (d.map fun t => (t.1, -t.2)).map Prod.fst = d.map Prod.fst := by simp
  refine exists_check (fun k hk => hp.fits k (hkeys ▸ hk)) (hkeys ▸ hp.trimmed.keys) fun k => ?_
  calc total k (d.map fun t => (t.1, -t.2)) = -total k d := termsSum_neg _ d
    _ = -total k p.dictionary := by rw [hp.total_eq]
    _ = total k (-p).dictionary := by
      rw [total, termsSum_dictionary, total, termsSum_dictionary]
      exact ((termsSum_ofTerms _ _).trans (termsSum_neg _ _)).symm

theorem Lists.sub (hp : Lists arity d p) (hq : Lists arity e q) :
    ∃ f, Dictionary.sub arity d e = .ok f ∧ Lists arity f (p - q) := by
  obtain ⟨g, hg, hlist⟩ := hq.neg
  obtain ⟨f, hf, hresult⟩ := hp.add hlist
  refine ⟨f, ?_, hresult⟩
  rw [Dictionary.sub, hg]
  exact hf

omit [DecidableEq F] in
theorem products_perm {d' e' : Dictionary F} (hd : d.Perm d') (he : e.Perm e') :
    (products d e).Perm (products d' e') := hd.flatMap fun _ _ => he.map _

omit [DecidableEq F] in
theorem products_dictionary (p q : Poly F n) :
    products p.dictionary q.dictionary =
      (mulTerms p.terms q.terms).map fun t => (t.1.toList, t.2) := by
  simp [products, dictionary, mulTerms, List.map_flatMap, List.flatMap_map, Function.comp_def,
    Monomial.mul]

theorem Lists.mul (hp : Lists arity d p) (hq : Lists arity e q) :
    ∃ f, Dictionary.mul arity d e = .ok f ∧ Lists arity f (p * q) := by
  refine exists_check ?_ (keys_enterAll_nodup _ List.nodup_nil) fun k => ?_
  · intro k hk
    have hk := (mem_keys_enterAll.mp hk).resolve_left List.not_mem_nil
    simp only [products, List.map_flatMap, List.map_map, List.mem_flatMap, List.mem_map] at hk
    obtain ⟨t, ht, u, hu, rfl⟩ := hk
    have hleft := hp.fits t.1 (List.mem_map_of_mem ht)
    have hright := hq.fits u.1 (List.mem_map_of_mem hu)
    simp only [Function.comp_apply, List.length_zipWith]
    omega
  · calc total k (enterAll [] (products d e)) = total k (products d e) :=
        (termsSum_enterAll _ [] _).trans (zero_add _)
      _ = total k (products p.dictionary q.dictionary) :=
        termsSum_perm _ (products_perm hp.perm hq.perm)
      _ = total k (p * q).dictionary := by
        rw [products_dictionary, total, termsSum_map, total, termsSum_dictionary]
        exact (termsSum_ofTerms _ _).symm

omit [DecidableEq F] in
theorem dictionary_map {G : Type} [CommRing G] [DecidableEq G] {f : F →+* G}
    (hf : Function.Injective f) (p : Poly F n) :
    (p.map f).dictionary = p.dictionary.map fun t => (t.1, f t.2) := by
  simp [dictionary, terms_map hf, mapTerm]

omit [DecidableEq F] in
theorem Lists.map {G : Type} [CommRing G] [DecidableEq G] {f : F →+* G}
    (hf : Function.Injective f) (hp : Lists arity d p) :
    ∃ e, mapCoefficients f arity d = .ok e ∧ Lists arity e (p.map f) := by
  have hkeys : (d.map fun t => (t.1, f t.2)).map Prod.fst = d.map Prod.fst := by simp
  refine exists_check (fun k hk => hp.fits k (hkeys ▸ hk)) (hkeys ▸ hp.trimmed.keys) fun k => ?_
  rw [dictionary_map hf]
  exact termsSum_perm _ (hp.perm.map _)

/-- Comparing key by key finds out whether two polynomials are equal. -/
theorem agree_iff (hp : Lists arity d p) (hq : Lists arity e q) : agree d e ↔ p = q := by
  have hsame : p = q ↔ ∀ k, total k d = total k e := by
    simp only [eq_iff_total_dictionary, hp.total_eq, hq.total_eq]
  have hkeys (d e : Dictionary F) :
      (d.all fun t => e.any fun u => u.1 == t.1) = true ↔
        ∀ k ∈ d.map Prod.fst, k ∈ e.map Prod.fst := by
    simp
  have hlookup : (d.all fun t => d.lookup t.1 == e.lookup t.1) = true ↔
      ∀ k ∈ d.map Prod.fst, total k d = total k e := by
    simp [← hp.trimmed.lookup_eq_iff hq.trimmed]
  rw [hsame, agree, Bool.and_eq_true, Bool.and_eq_true, hkeys, hkeys, hlookup]
  constructor
  · rintro ⟨⟨-, hback⟩, htotal⟩ k
    by_cases hk : k ∈ d.map Prod.fst
    · exact htotal k hk
    · rw [total_eq_zero hk, total_eq_zero fun hk' => hk (hback k hk')]
  · intro htotal
    have hiff (k : List ℕ) : k ∈ d.map Prod.fst ↔ k ∈ e.map Prod.fst := by
      rw [hp.trimmed.mem_keys_iff, hq.trimmed.mem_keys_iff, htotal]
    exact ⟨⟨fun k => (hiff k).mp, fun k => (hiff k).mpr⟩, fun k _ => htotal k⟩

end Operations

end Poly

end TapeAir
