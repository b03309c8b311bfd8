import TapeAir.Proofs.Constraint.Step
/-! # What a trace has written

The memory that a trace describes without a tape: each row may write to its pointer, and the value
most recently written to a pointer is found by looking back. A trace is consistent when every
executed row shows that value.
-/
namespace TapeAir

/-- What a row writes to its pointer, given the row after it, which alone shows what was read. -/
def Register.written? (r s : Register Goldilocks) : Option Goldilocks :=
  if r.executes .increment then some (r.memoryValue + 1)
  else if r.executes .decrement then some (r.memoryValue - 1)
  else if r.executes .read then some s.memoryValue
  else none

namespace Trace

/-- The value most recently written to a pointer by the rows before row `n`, and zero if there is
none. -/
def latestWrite (t : Trace) (pointer : Goldilocks) : ℕ → Goldilocks
  | 0 => 0
  | n + 1 =>
    match t[n]?, t[n + 1]? with
    | some r, some s =>
      if r.memoryPointer = pointer then (r.written? s).getD (latestWrite t pointer n)
      else latestWrite t pointer n
    | _, _ => latestWrite t pointer n

/-- Every row with an instruction shows what was last written to its pointer. -/
def MemoryConsistent (t : Trace) : Prop :=
  ∀ n r, t[n]? = some r → r.currentInstruction ≠ 0 →
    r.memoryValue = t.latestWrite r.memoryPointer n

instance (t : Trace) : Decidable t.MemoryConsistent :=
  decidable_of_iff (∀ n, (h : n < t.length) → t[n].currentInstruction ≠ 0 →
      t[n].memoryValue = t.latestWrite t[n].memoryPointer n) <| by
    constructor
    · intro h n r hr
      obtain ⟨hn, rfl⟩ := List.getElem?_eq_some_iff.mp hr
      exact h n hn
    · intro h n hn
      exact h n _ (List.getElem?_eq_getElem hn)

theorem latestWrite_succ {t : Trace} {n : ℕ} {r s : Register Goldilocks}
    (hr : t[n]? = some r) (hs : t[n + 1]? = some s) (pointer : Goldilocks) :
    t.latestWrite pointer (n + 1) =
      if r.memoryPointer = pointer then (r.written? s).getD (t.latestWrite pointer n)
      else t.latestWrite pointer n := by
  rw [latestWrite, hr, hs]

theorem latestWrite_eq_of_untouched {t : Trace} {pointer : Goldilocks} {m n : ℕ} (hmn : m ≤ n)
    (h : ∀ k r s, m ≤ k → k < n → t[k]? = some r → t[k + 1]? = some s →
      r.memoryPointer = pointer → r.written? s = none) :
    t.latestWrite pointer n = t.latestWrite pointer m := by
  induction n, hmn using Nat.le_induction with
  | base => rfl
  | succ n hmn ih =>
    have hn := ih fun k r s hk hkn => h k r s hk (Nat.lt_succ_of_lt hkn)
    rw [latestWrite]
    split
    · next r s hr hs =>
      split
      · next hp => rw [h n r s hmn (Nat.lt_succ_self n) hr hs hp, Option.getD_none, hn]
      · exact hn
    · exact hn

theorem latestWrite_eq_zero {t : Trace} {pointer : Goldilocks} {n : ℕ}
    (h : ∀ (k : ℕ) (r : Register Goldilocks), k < n → t[k]? = some r → r.memoryPointer ≠ pointer) :
    t.latestWrite pointer n = 0 :=
  latestWrite_eq_of_untouched (Nat.zero_le n) fun k r _ _ hkn hr _ hp => absurd hp (h k r hkn hr)

end Trace

namespace Register

theorem executes_iff {r : Register Goldilocks} {i : Instruction}
    (hi : r.currentInstruction = i.code) (j : Instruction) : r.executes j ↔ i = j := by
  simp only [executes, hi, decide_eq_true_eq]
  exact ⟨Instruction.code_cast_injective, fun h => h ▸ rfl⟩

def stored? (i : Instruction) (r s : Register Goldilocks) : Option Goldilocks :=
  match i with
  | .increment => some (r.memoryValue + 1)
  | .decrement => some (r.memoryValue - 1)
  | .read => some s.memoryValue
  | _ => none

theorem written?_eq {r : Register Goldilocks} {i : Instruction}
    (hi : r.currentInstruction = i.code) (s : Register Goldilocks) :
    r.written? s = stored? i r s := by
  cases i <;> simp [written?, stored?, executes_iff hi]

/-- Where the row determines the next value, the pointer stays and the value is what was written, or
the old one. -/
theorem stored?_of_settled {i : Instruction} {r : Register Goldilocks} {v : Goldilocks}
    (h : settled? i r = some v) (s : Register Goldilocks) :
    moved i r = r.memoryPointer ∧ (stored? i r s).getD r.memoryValue = v := by
  cases i with
  | left => cases h
  | right => cases h
  | read => cases h
  | loopStart => exact ⟨rfl, Option.some.inj h⟩
  | loopEnd => exact ⟨rfl, Option.some.inj h⟩
  | increment => exact ⟨rfl, Option.some.inj h⟩
  | decrement => exact ⟨rfl, Option.some.inj h⟩
  | write => exact ⟨rfl, Option.some.inj h⟩

theorem value_of_stay {r s : Register Goldilocks} {i : Instruction}
    (hi : r.currentInstruction = i.code) (h : Leads i r s)
    (hp : s.memoryPointer = r.memoryPointer) :
    s.memoryValue = (r.written? s).getD r.memoryValue := by
  have hmove := h.memoryPointer
  have hvalue := h.memoryValue
  rw [written?_eq hi]
  simp only [stored?]
  cases i with
  | left => exact absurd (hp.symm.trans hmove).symm (sub_eq_self.not.mpr one_ne_zero)
  | right => exact absurd (hp.symm.trans hmove).symm (add_eq_left.not.mpr one_ne_zero)
  | loopStart => simpa [settled?] using hvalue
  | loopEnd => simpa [settled?] using hvalue
  | increment => simpa [settled?] using hvalue
  | decrement => simpa [settled?] using hvalue
  | read => rfl
  | write => simpa [settled?] using hvalue

theorem written?_of_move {r s : Register Goldilocks} {i : Instruction}
    (hi : r.currentInstruction = i.code) (h : Leads i r s)
    (hp : s.memoryPointer ≠ r.memoryPointer) : r.written? s = none := by
  have hmove := h.memoryPointer
  rw [written?_eq hi]
  cases i with
  | left => rfl
  | right => rfl
  | loopStart => rfl
  | loopEnd => rfl
  | increment => exact absurd hmove hp
  | decrement => exact absurd hmove hp
  | read => exact absurd hmove hp
  | write => rfl

end Register

end TapeAir
