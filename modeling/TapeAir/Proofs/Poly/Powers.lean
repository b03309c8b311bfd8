import Mathlib.Data.List.Forall2
import TapeAir.Proofs.Poly.Dictionary
import TapeAir.Proofs.Poly.Evaluation
/-! # Evaluation that remembers powers

A dictionary is evaluated entry by entry. Each coordinate comes with the powers of it that have been
taken, and a power is taken once. The coordinates need not be elements of the field of coefficients,
if coefficients can be multiplied by them. What is remembered always acts as a power of the element
that the coordinate stands for, so the value is that of the polynomial, whatever the order of the
entries.
-/
namespace TapeAir

structure Coordinate (X : Type) where
  value : X
  powers : List (ℕ × X)

/-- Coefficients are multiplied by a coordinate, or a power of it, as by an element of their field
that it stands for. -/
structure StandsFor {F X : Type} [CommRing F] [Pow X ℕ] [HMul F X F] (f : X → F) : Prop where
  mul_self : ∀ (c : F) (x : X), c * x = c * f x
  mul_pow : ∀ (c : F) (x : X) (e : ℕ), c * x ^ e = c * f x ^ e

theorem standsFor_id {F : Type} [CommRing F] : StandsFor (id : F → F) where
  mul_self _ _ := rfl
  mul_pow _ _ _ := rfl

namespace Coordinate
variable {F X : Type} [CommRing F] [One X] [Pow X ℕ] [HMul F X F]

def ofValue (x : X) : Coordinate X := ⟨x, [(0, 1), (1, x)]⟩

def power (x : Coordinate X) (e : ℕ) : X × Coordinate X :=
  match x.powers.lookup e with
  | some y => (y, x)
  | none => (x.value ^ e, { x with powers := (e, x.value ^ e) :: x.powers })

/-- All that is remembered for a coordinate acts as a power of `a`. The power with the exponent zero
is never used. -/
structure Remembers (x : Coordinate X) (a : F) : Prop where
  value : ∀ (c : F) (e : ℕ), c * x.value ^ e = c * a ^ e
  powers : ∀ t ∈ x.powers, t.1 ≠ 0 → ∀ c : F, c * t.2 = c * a ^ t.1

theorem remembers_ofValue {f : X → F} (hf : StandsFor f) (x : X) : (ofValue x).Remembers (f x) where
  value c e := hf.mul_pow c x e
  powers := by
    rw [ofValue, List.forall_mem_cons, List.forall_mem_singleton]
    exact ⟨fun h => absurd rfl h, fun _ c => by rw [hf.mul_self, pow_one]⟩

omit [One X] in
theorem Remembers.power {x : Coordinate X} {a : F} (h : x.Remembers a) {e : ℕ} (he : e ≠ 0) :
    (∀ c : F, c * (x.power e).1 = c * a ^ e) ∧ (x.power e).2.Remembers a := by
  rw [Coordinate.power]
  cases hlookup : x.powers.lookup e with
  | some y =>
    obtain ⟨before, behind, hpowers, -⟩ := List.lookup_eq_some_iff.mp hlookup
    have hmem : (e, y) ∈ x.powers := hpowers ▸ List.mem_append_right _ List.mem_cons_self
    exact ⟨h.powers _ hmem he, h⟩
  | none =>
    have hpower (c : F) : c * x.value ^ e = c * a ^ e := h.value c e
    exact ⟨hpower, h.value, List.forall_mem_cons.mpr ⟨fun _ => hpower, h.powers⟩⟩

end Coordinate

namespace Dictionary
variable {F X : Type} [CommRing F] [One X] [Pow X ℕ] [HMul F X F]

/-- Multiplies powers of the coordinates in, one after the other, and passes over exponents zero. -/
def multiplyIn (acc : F) : List ℕ → List (Coordinate X) → F × List (Coordinate X)
  | e :: es, x :: xs =>
    if e = 0 then
      let rest := multiplyIn acc es xs
      (rest.1, x :: rest.2)
    else
      let taken := x.power e
      let rest := multiplyIn (acc * taken.1) es xs
      (rest.1, taken.2 :: rest.2)
  | _, xs => (acc, xs)

def addEntry (state : F × List (Coordinate X)) (t : List ℕ × F) : F × List (Coordinate X) :=
  let term := multiplyIn t.2 t.1 state.2
  (state.1 + term.1, term.2)

def evaluate (d : Dictionary F) (point : List X) : F :=
  (d.foldl addEntry (0, point.map .ofValue)).1

def product (point : List F) (k : List ℕ) : F := (List.zipWith (· ^ ·) point k).prod

variable {point : List F} {xs : List (Coordinate X)}

omit [One X] in
theorem multiplyIn_eq (h : List.Forall₂ Coordinate.Remembers xs point) (acc : F) (k : List ℕ) :
    (multiplyIn acc k xs).1 = acc * product point k ∧
      List.Forall₂ Coordinate.Remembers (multiplyIn acc k xs).2 point := by
  induction h generalizing acc k with
  | nil => simp [multiplyIn, product]
  | @cons x a xs point hx h ih =>
    cases k with
    | nil => exact ⟨by simp [multiplyIn, product], .cons hx h⟩
    | cons e es =>
      have hproduct : product (a :: point) (e :: es) = a ^ e * product point es := rfl
      rw [multiplyIn, hproduct]
      by_cases he : e = 0
      · obtain ⟨hvalue, hrest⟩ := ih acc es
        rw [if_pos he, he, pow_zero, one_mul]
        exact ⟨hvalue, .cons hx hrest⟩
      · obtain ⟨hpower, hx⟩ := hx.power he
        obtain ⟨hvalue, hrest⟩ := ih (acc * (x.power e).1) es
        rw [if_neg he, ← mul_assoc, ← hpower]
        exact ⟨hvalue, .cons hx hrest⟩

omit [One X] in
theorem foldl_addEntry (h : List.Forall₂ Coordinate.Remembers xs point) (acc : F)
    (d : Dictionary F) :
    (d.foldl addEntry (acc, xs)).1 = acc + (d.map fun t => t.2 * product point t.1).sum := by
  induction d generalizing acc xs with
  | nil => simp
  | cons t d ih =>
    obtain ⟨hvalue, hrest⟩ := multiplyIn_eq h t.2 t.1
    rw [List.foldl_cons, List.map_cons, List.sum_cons, ← add_assoc, ← hvalue]
    exact ih hrest _

theorem evaluate_eq {f : X → F} (hf : StandsFor f) (d : Dictionary F) (point : List X) :
    d.evaluate point = (d.map fun t => t.2 * product (point.map f) t.1).sum := by
  have hstart : List.Forall₂ Coordinate.Remembers (point.map .ofValue) (point.map f) := by
    rw [List.forall₂_map_left_iff, List.forall₂_map_right_iff, List.forall₂_same]
    exact fun x _ => Coordinate.remembers_ofValue hf x
  rw [evaluate, foldl_addEntry hstart, zero_add]

end Dictionary

namespace Poly
variable {F : Type} [CommRing F] {n : ℕ}

theorem product_eq {point : List F} (h : point.length = n) (m : Monomial n) :
    Dictionary.product point m.toList = ∏ i, Vector.get ⟨point.toArray, h⟩ i ^ m.get i := by
  rw [Dictionary.product, ← List.prod_ofFn]
  congr 1
  refine List.ext_getElem (by simp [h]) fun i hi hi' => ?_
  simp [vector_get_eq]

theorem eval_eq_sum {point : List F} (h : point.length = n) (p : Poly F n) :
    p.eval ⟨point.toArray, h⟩ =
      (p.dictionary.map fun t => t.2 * Dictionary.product point t.1).sum := by
  rw [eval_eq_termsValue, termsValue, dictionary, List.map_map]
  refine congrArg List.sum (List.map_congr_left fun t _ => ?_)
  rw [termValue_eq, Function.comp_apply, product_eq h]

theorem Lists.evaluate_eq {X : Type} [One X] [Pow X ℕ] [HMul F X F] {f : X → F}
    (hf : StandsFor f) {arity : ℤ} {d : Dictionary F} {p : Poly F n} (hd : Lists arity d p)
    {point : List X} (h : (point.map f).length = n) :
    d.evaluate point = p.eval ⟨(point.map f).toArray, h⟩ := by
  rw [Dictionary.evaluate_eq hf, eval_eq_sum h, (hd.perm.map _).sum_eq]

/-- At a point over the field of its coefficients a dictionary has the value of what it lists. -/
theorem Lists.evaluate_self {arity : ℤ} {d : Dictionary F} {p : Poly F n} (hd : Lists arity d p)
    {point : List F} (h : point.length = n) : d.evaluate point = p.eval ⟨point.toArray, h⟩ := by
  have hid : (point.map id).length = n := by rwa [List.map_id]
  simpa only [List.map_id] using hd.evaluate_eq standsFor_id hid

end Poly

end TapeAir
