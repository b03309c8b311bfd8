/-! # Sparse polynomials in several variables

A polynomial in `n` variables is its list of nonzero terms in lexicographic order of the exponents,
so two polynomials are equal exactly when they are equal as data. Every operation collects terms
with `ofTerms`, which keeps that form whatever the coefficients are; no law of the coefficients is
needed to define the operations.
-/
namespace TapeAir

abbrev Monomial (n : Nat) := Vector Nat n

namespace Monomial
variable {n : Nat}

def unit : Monomial n := Vector.replicate n 0

def single (i : Nat) : Monomial n := Vector.ofFn fun j => if j.val = i then 1 else 0

def mul (s t : Monomial n) : Monomial n := Vector.zipWith (· + ·) s t

def degree (m : Monomial n) : Nat := m.foldl (· + ·) 0

end Monomial

abbrev Term (F : Type) (n : Nat) := Monomial n × F

structure Poly (F : Type) [Zero F] (n : Nat) where
  terms : List (Term F n)
  sorted : terms.Pairwise fun s t => compare s.1 t.1 = .lt
  nonzero : ∀ t ∈ terms, t.2 ≠ 0

namespace Poly
variable {F : Type} {n : Nat}

theorem ext [Zero F] {p q : Poly F n} (h : p.terms = q.terms) : p = q := by
  cases p
  cases q
  simp_all

instance [Zero F] [DecidableEq F] : DecidableEq (Poly F n) := fun p q =>
  if h : p.terms = q.terms then isTrue (ext h) else isFalse fun e => h (e ▸ rfl)

section Terms
variable [Zero F] [Add F] [DecidableEq F]

/-- Adds a term to a sorted list of terms: at its place if it is new, else to the coefficient
that stands there. A coefficient that becomes zero takes its term with it. -/
def insertTerm (m : Monomial n) (c : F) : List (Term F n) → List (Term F n)
  | [] => if c = 0 then [] else [(m, c)]
  | (k, d) :: rest =>
    match compare m k with
    | .lt => if c = 0 then (k, d) :: rest else (m, c) :: (k, d) :: rest
    | .eq => if d + c = 0 then rest else (k, d + c) :: rest
    | .gt => (k, d) :: insertTerm m c rest

theorem mem_insertTerm {m : Monomial n} {c : F} {l : List (Term F n)} {t : Term F n}
    (h : t ∈ insertTerm m c l) : t.1 = m ∨ t ∈ l := by
  induction l with
  | nil =>
    simp only [insertTerm] at h
    split at h <;> simp_all
  | cons head rest ih =>
    obtain ⟨k, d⟩ := head
    simp only [insertTerm] at h
    split at h
    · split at h <;> simp_all
      rcases h with rfl | h <;> simp_all
    · rename_i hk
      have hk := Std.LawfulEqCmp.eq_of_compare hk
      split at h
      · exact .inr (List.mem_cons_of_mem _ h)
      · rcases List.mem_cons.mp h with rfl | h
        · exact .inl hk.symm
        · exact .inr (List.mem_cons_of_mem _ h)
    · rcases List.mem_cons.mp h with rfl | h
      · exact .inr List.mem_cons_self
      · exact (ih h).imp_right (List.mem_cons_of_mem _)

theorem sorted_insertTerm (m : Monomial n) (c : F) {l : List (Term F n)}
    (h : l.Pairwise fun s t => compare s.1 t.1 = .lt) :
    (insertTerm m c l).Pairwise fun s t => compare s.1 t.1 = .lt := by
  induction l with
  | nil =>
    simp only [insertTerm]
    split <;> simp
  | cons head rest ih =>
    obtain ⟨k, d⟩ := head
    obtain ⟨hk, hrest⟩ := List.pairwise_cons.mp h
    simp only [insertTerm]
    split
    · rename_i hm
      split
      · exact h
      · refine List.pairwise_cons.mpr ⟨fun t ht => ?_, h⟩
        rcases List.mem_cons.mp ht with rfl | ht
        · exact hm
        · exact Std.TransCmp.lt_trans hm (hk t ht)
    · split
      · exact hrest
      · exact List.pairwise_cons.mpr ⟨hk, hrest⟩
    · rename_i hm
      refine List.pairwise_cons.mpr ⟨fun t ht => ?_, ih hrest⟩
      rcases mem_insertTerm ht with ht | ht
      · rw [ht]
        exact Std.OrientedCmp.lt_of_gt hm
      · exact hk t ht

theorem nonzero_insertTerm (m : Monomial n) (c : F) {l : List (Term F n)}
    (h : ∀ t ∈ l, t.2 ≠ 0) : ∀ t ∈ insertTerm m c l, t.2 ≠ 0 := by
  induction l with
  | nil =>
    simp only [insertTerm]
    split <;> simp_all
  | cons head rest ih =>
    obtain ⟨k, d⟩ := head
    obtain ⟨hd, hrest⟩ := List.forall_mem_cons.mp h
    simp only [insertTerm]
    split
    · split
      · exact h
      · exact List.forall_mem_cons.mpr ⟨‹_›, h⟩
    · split
      · exact hrest
      · exact List.forall_mem_cons.mpr ⟨‹_›, hrest⟩
    · exact List.forall_mem_cons.mpr ⟨hd, ih hrest⟩

def addTerm (p : Poly F n) (m : Monomial n) (c : F) : Poly F n where
  terms := insertTerm m c p.terms
  sorted := sorted_insertTerm m c p.sorted
  nonzero := nonzero_insertTerm m c p.nonzero

def addTerms (p : Poly F n) (ts : List (Term F n)) : Poly F n :=
  ts.foldr (fun t q => q.addTerm t.1 t.2) p

end Terms

section Operations
variable [Zero F]

def zero : Poly F n := ⟨[], .nil, by simp⟩

instance : Zero (Poly F n) := ⟨zero⟩

variable [Add F] [DecidableEq F]

def ofTerms (ts : List (Term F n)) : Poly F n := zero.addTerms ts

def const (c : F) : Poly F n := ofTerms [(.unit, c)]

/-- The polynomial of variable `i`, and zero if there is no such variable. -/
def X [One F] (i : Nat) : Poly F n := if i < n then ofTerms [(.single i, 1)] else 0

def indeterminates [One F] : List (Poly F n) := (List.range n).map X

def mulTerms [Mul F] (s t : List (Term F n)) : List (Term F n) :=
  s.flatMap fun a => t.map fun b => (a.1.mul b.1, a.2 * b.2)

instance [One F] : One (Poly F n) := ⟨const 1⟩
instance [NatCast F] : NatCast (Poly F n) := ⟨fun k => const k⟩
instance : Add (Poly F n) := ⟨fun p q => p.addTerms q.terms⟩
instance [Neg F] : Neg (Poly F n) := ⟨fun p => ofTerms (p.terms.map fun t => (t.1, -t.2))⟩
instance [Neg F] : Sub (Poly F n) := ⟨fun p q => p + -q⟩
instance [Mul F] : Mul (Poly F n) := ⟨fun p q => ofTerms (mulTerms p.terms q.terms)⟩

def map {G : Type} [Zero G] [Add G] [DecidableEq G] (f : F → G) (p : Poly F n) : Poly G n :=
  ofTerms (p.terms.map fun t => (t.1, f t.2))

end Operations

/-- The greatest sum of exponents of a term; the zero polynomial has degree `-1`. -/
def degree [Zero F] (p : Poly F n) : Int :=
  p.terms.foldl (fun d t => max d t.1.degree) (-1)

section Evaluation
variable [Mul F] [Pow F Nat]

def termValue (point : Vector F n) (m : Monomial n) (c : F) : F :=
  Fin.foldl n (fun acc i => if m.get i = 0 then acc else acc * point.get i ^ m.get i) c

def eval [Zero F] [Add F] (p : Poly F n) (point : Vector F n) : F :=
  p.terms.foldl (fun acc t => acc + termValue point t.1 t.2) 0

end Evaluation

end Poly

end TapeAir
