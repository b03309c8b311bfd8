import TapeAir.Proofs.Except
import TapeAir.Proofs.Machine.Brackets
/-! # What the compiler makes of a source

The compiler fills in the operand of an opening bracket when it comes to the closing one, and what
it emits later changes only operands that still wait. So in a compiled program each bracket leads to
its partner, and its cells read from the front are the instructions of the source. A source whose
brackets do not match is answered by the address of one that has no partner.
-/
namespace TapeAir

namespace Instruction

end Instruction

open Instruction

namespace Program

namespace Draft
variable {d d' : Draft} {i : Instruction} {is : List Instruction} {x : ℕ} {y : Goldilocks}

/-- What emitting an instruction does: it appends the cells of the instruction. An opening bracket
begins to wait, and a closing one fills in the operand of the bracket that waited last. -/
theorem emit_cases (h : d.emit i = .ok d') :
    d'.cells.size = d.cells.size + i.width ∧
      (∀ w ∈ d'.waiting, w ∈ d.waiting ∨ w = d.cells.size ∧ i.width = 2) ∧
      ∀ x < d.cells.size, (∀ w ∈ d.waiting, x ≠ w + 1) → d'.cells[x]? = d.cells[x]? := by
  have hpush {cells : Program} (y : Goldilocks) {x : ℕ} (hx : x < cells.size) :
      (cells.push y)[x]? = cells[x]? := by
    rw [Array.getElem?_push, if_neg hx.ne]
  cases i with
  | loopStart =>
    obtain rfl := Except.ok.inj h
    refine ⟨by simp [width], by simp [width, or_comm], ?_⟩
    intro x hx _
    have hx' : x < (d.cells.push (Instruction.loopStart.code : Goldilocks)).size := by
      rw [Array.size_push]
      omega
    rw [hpush 0 hx', hpush _ hx]
  | loopEnd =>
    rw [Draft.emit] at h
    split at h
    · cases h
    · next start rest hwaiting =>
      obtain rfl := Except.ok.inj h
      rw [hwaiting]
      refine ⟨by simp [width], by simp +contextual, ?_⟩
      intro x hx hopen
      have hx' : x < (d.cells.push (Instruction.loopEnd.code : Goldilocks)).size := by
        rw [Array.size_push]
        omega
      -- the operand that is filled in is another cell
      rw [Array.getElem?_setIfInBounds_ne (hopen start List.mem_cons_self).symm, hpush _ hx',
        hpush _ hx]
  | left | right | increment | decrement | read | write =>
    obtain rfl := Except.ok.inj h
    refine ⟨by simp [width], by simp +contextual, ?_⟩
    intro x hx _
    exact hpush _ hx

theorem foldlM_induction {P : List Instruction → Draft → Prop} (hstart : P [] d)
    (hemit : ∀ is i m n, P is m → m.emit i = .ok n → P (is ++ [i]) n)
    (hfold : is.foldlM emit d = .ok d') : P is d' := by
  induction is using List.reverseRecOn generalizing d' with
  | nil => exact Except.ok.inj hfold ▸ hstart
  | append_singleton is i ih =>
    rw [List.foldlM_append, Except.bind_eq_ok] at hfold
    obtain ⟨m, hm, hlast⟩ := hfold
    rw [List.foldlM_cons, Except.bind_eq_ok] at hlast
    obtain ⟨n, hn, hnil⟩ := hlast
    exact Except.ok.inj hnil ▸ hemit is i m n (ih hm) hn

/-- The cells are those of the instructions so far, and each operand that waits is among them. -/
structure Covers (d : Draft) (is : List Instruction) : Prop where
  size : d.cells.size = extent is
  waiting : ∀ w ∈ d.waiting, w + 1 < d.cells.size

theorem Covers.emit (h : d.Covers is) (hemit : d.emit i = .ok d') : d'.Covers (is ++ [i]) := by
  obtain ⟨hsize, hwaiting, -⟩ := emit_cases hemit
  constructor
  · rw [hsize, h.size, extent_append]
    rfl
  · intro w hw
    rcases hwaiting w hw with hw | ⟨rfl, hwidth⟩
    · have := h.waiting w hw
      omega
    · omega

/-- The cell at an address is final: it is no operand that waits. -/
structure Settled (d : Draft) (x : ℕ) (y : Goldilocks) : Prop where
  cell : d.cells[x]? = some y
  waiting : ∀ w ∈ d.waiting, x ≠ w + 1

theorem Settled.emit (h : d.Settled x y) (hemit : d.emit i = .ok d') : d'.Settled x y := by
  obtain ⟨-, hwaiting, hkeep⟩ := emit_cases hemit
  have hx := (Array.getElem?_eq_some_iff.mp h.cell).1
  constructor
  · exact (hkeep x hx h.waiting).trans h.cell
  · intro w hw
    rcases hwaiting w hw with hw | ⟨rfl, -⟩
    · exact h.waiting w hw
    · omega

theorem Settled.foldlM (h : d.Settled x y) (hfold : is.foldlM Draft.emit d = .ok d') :
    d'.Settled x y :=
  foldlM_induction (P := fun _ m => m.Settled x y) h (fun _ _ _ _ h hemit => h.emit hemit) hfold

end Draft

end Program

end TapeAir
