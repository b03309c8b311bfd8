import Mathlib.Algebra.Group.Nat.Defs
/-! # Loops

A loop runs its body as long as a test holds. From a state where the test fails it stops there, so
there is at most one state in which it ends. If the body keeps an invariant and lowers a measure, the
loop does end, and the invariant holds there.
-/
namespace TapeAir

variable {σ : Type} {test : σ → Bool} {body : σ → Option σ} {s e e' : σ}

/-- A loop that runs its body as long as a test holds gets from one state to another. -/
inductive Loop (test : σ → Bool) (body : σ → Option σ) : σ → σ → Prop
  | stop {s : σ} : test s = false → Loop test body s s
  | turn {s s' e : σ} : test s = true → body s = some s' → Loop test body s' e → Loop test body s e

theorem Loop.unique (h : Loop test body s e) (h' : Loop test body s e') : e' = e := by
  induction h with
  | stop hstop =>
    cases h' with
    | stop => rfl
    | turn hgo => exact absurd hgo (Bool.eq_false_iff.mp hstop)
  | turn hgo hbody _ ih =>
    cases h' with
    | stop hstop => exact absurd hgo (Bool.eq_false_iff.mp hstop)
    | turn _ hbody' hloop =>
      obtain rfl := Option.some.inj (hbody.symm.trans hbody')
      exact ih hloop

theorem Loop.of_states (state : ℕ → σ) (n : ℕ)
    (hgo : ∀ i < n, test (state i) = true ∧ body (state i) = some (state (i + 1)))
    (hstop : test (state n) = false) : Loop test body (state 0) (state n) := by
  induction n generalizing state with
  | zero => exact .stop hstop
  | succ n ih =>
    obtain ⟨htest, hbody⟩ := hgo 0 n.succ_pos
    refine .turn htest hbody (ih (fun i => state (i + 1)) ?_ hstop)
    exact fun i hi => hgo (i + 1) (Nat.succ_lt_succ hi)

/-- The rule of total correctness. The induction is on the measure. -/
theorem Loop.exists_of_invariant {Inv : σ → Prop} (measure : σ → ℕ)
    (hbody : ∀ s, Inv s → test s = true →
      ∃ s', body s = some s' ∧ Inv s' ∧ measure s' < measure s)
    (h : Inv s) : ∃ e, Loop test body s e ∧ Inv e ∧ test e = false := by
  induction hn : measure s using Nat.strongRecOn generalizing s with
  | ind n ih =>
    cases htest : test s with
    | false => exact ⟨s, .stop htest, h, htest⟩
    | true =>
      obtain ⟨s', hs', hinv, hlt⟩ := hbody s h htest
      obtain ⟨e, hloop, he⟩ := ih _ (hn ▸ hlt) hinv rfl
      exact ⟨e, .turn htest hs' hloop, he⟩

end TapeAir
