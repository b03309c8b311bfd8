import TapeAir.Proofs.Constraint.Acceptance
import TapeAir.Proofs.Machine.History
/-! # Traces that the processor constraints accept

If every current instruction is a code or zero, an accepted trace starts in the initial state, its
cycles count up from zero, and each row with an instruction is followed by the row it leads to.
-/
namespace TapeAir.Trace

def Coded (t : Trace) : Prop :=
  ∀ r ∈ t, r.currentInstruction = 0 ∨ ∃ i : Instruction, r.currentInstruction = i.code

def RunsThenIdles (t : Trace) : Prop :=
  ∃ run idle : List (Register Goldilocks), t = run ++ idle ∧
    (∀ r ∈ run, ∃ i : Instruction, r.currentInstruction = i.code) ∧
    ∀ r ∈ idle, r.currentInstruction = 0

theorem RunsThenIdles.coded {t : Trace} (h : t.RunsThenIdles) : t.Coded := by
  obtain ⟨run, idle, rfl, hrun, hidle⟩ := h
  intro r hr
  rcases List.mem_append.mp hr with hr | hr
  · exact .inr (hrun r hr)
  · exact .inl (hidle r hr)

theorem RunsThenIdles.active {t : Trace} (h : t.RunsThenIdles) {m n : ℕ}
    {r s : Register Goldilocks} (hmn : m ≤ n) (hr : t[m]? = some r) (hs : t[n]? = some s)
    (hactive : s.currentInstruction ≠ 0) : r.currentInstruction ≠ 0 := by
  obtain ⟨run, idle, rfl, hrun, hidle⟩ := h
  have hn : n < run.length := by
    by_contra hge
    rw [List.getElem?_append_right (Nat.le_of_not_lt hge)] at hs
    exact hactive (hidle s (List.mem_of_getElem? hs))
  rw [List.getElem?_append_left (by omega)] at hr
  obtain ⟨i, hi⟩ := hrun r (List.mem_of_getElem? hr)
  exact hi ▸ i.code_cast_ne_zero

structure Lawful (t : Trace) : Prop where
  starts : ∀ r : Register Goldilocks, t[0]? = some r →
    r.cycle = 0 ∧ r.instructionPointer = 0 ∧ r.memoryPointer = 0 ∧ r.memoryValue = 0
  ticks : ∀ (n : ℕ) (r s : Register Goldilocks), t[n]? = some r → t[n + 1]? = some s →
    Register.Ticks r s
  leads : ∀ (n : ℕ) (r s : Register Goldilocks) (i : Instruction), t[n]? = some r →
    t[n + 1]? = some s → r.currentInstruction = i.code → Register.Leads i r s
  coded : t.Coded

theorem Lawful.of_accepts {t : Trace} (h : Kind.processor.Accepts (t.map Register.toList))
    (hc : t.Coded) : Lawful t := by
  refine ⟨?_, ?_, ?_, hc⟩
  · intro r hr
    have hstart := Register.layout.boundary_of_accepts h hr
    exact ⟨hstart _ (by simp [Register.layout, Register.boundary]),
      hstart _ (by simp [Register.layout, Register.boundary]),
      hstart _ (by simp [Register.layout, Register.boundary]),
      hstart _ (by simp [Register.layout, Register.boundary])⟩
  · intro n r s hr hs
    have hpair := Register.layout.transition_of_accepts h hr hs
    rcases hc r (List.mem_of_getElem? hr) with h0 | ⟨i, hi⟩
    · exact (Register.transition_eq_zero_iff_of_idle h0).mp hpair
    · exact ((Register.transition_eq_zero_iff_of_code hi).mp hpair).1
  · intro n r s i hr hs hi
    have hpair := Register.layout.transition_of_accepts h hr hs
    exact ((Register.transition_eq_zero_iff_of_code hi).mp hpair).2

theorem Lawful.isChain {t : Trace} (h : Lawful t) :
    t.IsChain fun r s => ∀ x ∈ r.transition s, x = 0 := by
  rw [List.isChain_iff_getElem]
  intro n hn
  have hr : t[n]? = some t[n] := List.getElem?_eq_getElem (by omega)
  have hs : t[n + 1]? = some t[n + 1] := List.getElem?_eq_getElem hn
  have hticks := h.ticks n _ _ hr hs
  rcases h.coded _ (List.mem_of_getElem? hr) with h0 | ⟨i, hi⟩
  · exact (Register.transition_eq_zero_iff_of_idle h0).mpr hticks
  · exact (Register.transition_eq_zero_iff_of_code hi).mpr ⟨hticks, h.leads n _ _ i hr hs hi⟩

theorem Lawful.cycle_eq {t : Trace} (h : Lawful t) {n : ℕ} {r : Register Goldilocks}
    (hr : t[n]? = some r) : r.cycle = n := by
  induction n generalizing r with
  | zero => simpa using (h.starts r hr).1
  | succ n ih =>
    obtain ⟨q, hq⟩ := exists_row_of_le (Nat.le_succ n) hr
    rw [(h.ticks n q r hq hr).cycle, ih hq]
    push_cast
    rfl

/-- While the pointer is away, nothing is written to the place that it has left. -/
theorem Lawful.latestWrite_of_left {t : Trace} (h : Lawful t) {i j : ℕ} {r : Register Goldilocks}
    (hij : i ≤ j) (hr : t[i]? = some r) (hactive : r.currentInstruction ≠ 0)
    (hnext : ∀ s, t[i + 1]? = some s → s.memoryPointer ≠ r.memoryPointer)
    (haway : ∀ k s, i < k → k < j → t[k]? = some s → s.memoryPointer ≠ r.memoryPointer) :
    t.latestWrite r.memoryPointer j = t.latestWrite r.memoryPointer i := by
  refine latestWrite_eq_of_untouched hij ?_
  intro k q s hik hkj hq hs hp
  rcases Nat.lt_or_eq_of_le hik with hik | rfl
  · exact absurd hp (haway k q hik hkj hq)
  · obtain rfl := Option.some.inj (hr.symm.trans hq)
    obtain ⟨c, hc⟩ := (h.coded r (List.mem_of_getElem? hr)).resolve_left hactive
    exact Register.written?_of_move hc (h.leads i r s c hr hs hc) (hnext s hs)

end TapeAir.Trace
