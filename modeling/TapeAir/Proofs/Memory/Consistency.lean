import TapeAir.Proofs.Argument.Triple
import TapeAir.Proofs.Machine.History
import TapeAir.Proofs.Machine.Lawful
import TapeAir.Proofs.Memory.Order
/-! # When the accepted tables give a consistent memory

An accepted memory matrix with the accesses of an accepted trace lists the accesses of every pointer
in time order. The constraints carry values between neighbouring accesses of the trace and along
interweaved rows, but not from an access into the interweaved rows after it. So the trace is
consistent exactly when the matrix does that by itself.
-/
namespace TapeAir

/-- Every access that is followed by interweaved rows and then by another access of its pointer
hands its value to the first of them. -/
def MemoryRow.CarriesIntoGaps (rows : List (MemoryRow Goldilocks)) : Prop :=
  ∀ (i j : ℕ) (r q s : MemoryRow Goldilocks), rows[i]? = some r → rows[i + 1]? = some q →
    rows[j]? = some s → i + 1 < j → r.interweaved = 0 → q.interweaved ≠ 0 → s.interweaved = 0 →
    q.memoryPointer = r.memoryPointer → s.memoryPointer = r.memoryPointer →
    q.memoryValue = r.memoryValue

namespace Trace

structure RecordedBy (t : Trace) (rows : List (MemoryRow Goldilocks)) : Prop where
  lawful : Lawful t
  runs : t.RunsThenIdles
  short : List.length t < Goldilocks.modulus
  ordered : MemoryRow.Ordered rows
  same : t.accesses = MemoryRow.accesses rows

structure Shows (t : Trace) (rows : List (MemoryRow Goldilocks)) (i n : ℕ)
    (q : MemoryRow Goldilocks) (r : Register Goldilocks) : Prop where
  row : rows[i]? = some q
  time : t[n]? = some r
  access : q.interweaved = 0
  active : r.currentInstruction ≠ 0
  cycle : q.cycle = n
  pointer : q.memoryPointer = r.memoryPointer
  value : q.memoryValue = r.memoryValue

namespace RecordedBy
variable {t : Trace} {rows : List (MemoryRow Goldilocks)} (h : RecordedBy t rows)
include h

theorem lt_modulus {n : ℕ} {r : Register Goldilocks} (hr : t[n]? = some r) :
    n < Goldilocks.modulus :=
  (List.getElem?_eq_some_iff.mp hr).1.trans h.short

theorem exists_row {n : ℕ} {r : Register Goldilocks} (hr : t[n]? = some r)
    (hactive : r.currentInstruction ≠ 0) : ∃ i q, Shows t rows i n q r := by
  have hmem : r.access ∈ MemoryRow.accesses rows :=
    h.same ▸ Trace.mem_accesses.mpr ⟨n, r, hr, hactive, rfl⟩
  obtain ⟨i, q, hq, hopen, he⟩ := MemoryRow.mem_accesses.mp hmem
  simp only [MemoryRow.access, Register.access, Prod.mk.injEq] at he
  exact ⟨i, q, hq, hr, hopen, hactive, he.1.trans (h.lawful.cycle_eq hr), he.2.1, he.2.2⟩

theorem exists_time {i : ℕ} {q : MemoryRow Goldilocks} (hq : rows[i]? = some q)
    (hopen : q.interweaved = 0) : ∃ n r, Shows t rows i n q r := by
  have hmem : q.access ∈ t.accesses :=
    h.same ▸ MemoryRow.mem_accesses.mpr ⟨i, q, hq, hopen, rfl⟩
  obtain ⟨n, r, hr, hactive, he⟩ := Trace.mem_accesses.mp hmem
  simp only [MemoryRow.access, Register.access, Prod.mk.injEq] at he
  exact ⟨n, r, hq, hr, hopen, hactive, he.1.symm.trans (h.lawful.cycle_eq hr), he.2.1.symm,
    he.2.2.symm⟩

/-- The time between two accesses of a pointer is the distance of their rows, up to the modulus. -/
theorem time_eq {i j m n : ℕ} {q u : MemoryRow Goldilocks} {r s : Register Goldilocks}
    (hm : Shows t rows i m q r) (hn : Shows t rows j n u s) (hp : q.memoryPointer = u.memoryPointer)
    (hij : i ≤ j) : (n : Goldilocks) = ((m + (j - i) : ℕ) : Goldilocks) := by
  rw [← hn.cycle, h.ordered.cycle_eq hij hm.row hn.row hp, hm.cycle]
  push_cast
  rfl

/-- If the cycles between two accesses of a pointer wrapped around, they and the times between would
use up the whole field: those are recorded as well. -/
theorem no_wrap {i j m n : ℕ} {q u : MemoryRow Goldilocks} {r s : Register Goldilocks}
    (hm : Shows t rows i m q r) (hn : Shows t rows j n u s)
    (hp : q.memoryPointer = u.memoryPointer) (hij : i ≤ j) :
    j - i < Goldilocks.modulus + n - m := by
  by_contra hwrap
  obtain ⟨k, hk, hfree⟩ := h.ordered.exists_free_cycle
  by_cases hbetween : n < k ∧ k < m
  · obtain ⟨v, hv⟩ := exists_row_of_le hbetween.2.le hm.time
    obtain ⟨l, w, hw⟩ := h.exists_row hv (h.runs.active hbetween.2.le hv hm.time hm.active)
    exact hfree l w hw.row hw.cycle
  · -- every other time is the cycle of a row between the two
    obtain ⟨d, hd, hcast⟩ : ∃ d ≤ j - i, ((m + d : ℕ) : Goldilocks) = k := by
      have hmt := h.lt_modulus hm.time
      by_cases hmk : m ≤ k
      · exact ⟨k - m, by omega, by rw [Nat.add_sub_cancel' hmk]⟩
      · refine ⟨k + Goldilocks.modulus - m, by omega, ?_⟩
        rw [Nat.add_sub_cancel' (by omega), Goldilocks.natCast_add_modulus]
    obtain ⟨w, hw⟩ := exists_row_of_le (i := i + d) (by omega) hn.row
    have hwq := h.ordered.countsUp.eq_between (Nat.le_add_right i d) (by omega) hm.row hw hn.row hp
    refine hfree (i + d) w hw ?_
    rw [h.ordered.cycle_eq (Nat.le_add_right i d) hm.row hw hwq.symm, hm.cycle, ← hcast,
      Nat.add_sub_cancel_left]
    push_cast
    rfl

theorem time_lt {i j m n : ℕ} {q u : MemoryRow Goldilocks} {r s : Register Goldilocks}
    (hm : Shows t rows i m q r) (hn : Shows t rows j n u s) (hp : q.memoryPointer = u.memoryPointer)
    (hij : i < j) : m < n := by
  by_contra hnm
  have hmt := h.lt_modulus hm.time
  have hwrap := h.no_wrap hm hn hp hij.le
  have htime := h.time_eq hm hn hp hij.le
  by_cases hsmall : m + (j - i) < Goldilocks.modulus
  · have := Goldilocks.natCast_inj_of_lt (by omega) hsmall htime
    omega
  · have hback := Goldilocks.natCast_add_modulus (m + (j - i) - Goldilocks.modulus)
    rw [Nat.sub_add_cancel (by omega)] at hback
    have := Goldilocks.natCast_inj_of_lt (by omega) (by omega) (htime.trans hback)
    omega

theorem row_lt {i j m n : ℕ} {q u : MemoryRow Goldilocks} {r s : Register Goldilocks}
    (hm : Shows t rows i m q r) (hn : Shows t rows j n u s) (hp : q.memoryPointer = u.memoryPointer)
    (hmn : m < n) : i < j := by
  by_contra hji
  rcases Nat.lt_or_eq_of_le (Nat.not_lt.mp hji) with hlt | rfl
  · have := h.time_lt hn hm hp.symm hlt
    omega
  · obtain rfl := Option.some.inj (hm.row.symm.trans hn.row)
    have := Goldilocks.natCast_inj_of_lt (h.lt_modulus hm.time) (h.lt_modulus hn.time)
      (hm.cycle.symm.trans hn.cycle)
    omega

theorem no_access_between {i j m n : ℕ} {q u : MemoryRow Goldilocks} {r s : Register Goldilocks}
    (hlast : MemoryRow.LastAccess rows i j q u) (hm : Shows t rows i m q r)
    (hn : Shows t rows j n u s) {k : ℕ} {v : Register Goldilocks} (hmk : m < k) (hkn : k < n)
    (hv : t[k]? = some v) : v.memoryPointer ≠ r.memoryPointer := by
  intro hp
  obtain ⟨l, w, hw⟩ := h.exists_row hv (h.runs.active hkn.le hv hn.time hn.active)
  have hqw : q.memoryPointer = w.memoryPointer := hm.pointer.trans (hp.symm.trans hw.pointer.symm)
  have hil := h.row_lt hm hw hqw hmk
  have hlj := h.row_lt hw hn (hqw.symm.trans hlast.pointer) hkn
  exact hlast.gap l w hil hlj hw.row hw.access

/-- An access right after the last one, in the next row of the matrix: the next row of the trace
shows what was written. -/
theorem latestWrite_of_adjacent {i m n : ℕ} {q u : MemoryRow Goldilocks}
    {r s : Register Goldilocks} (hp : q.memoryPointer = u.memoryPointer)
    (hm : Shows t rows i m q r) (hn : Shows t rows (i + 1) n u s)
    (hr : r.memoryValue = t.latestWrite r.memoryPointer m) :
    s.memoryValue = t.latestWrite s.memoryPointer n := by
  have hlt := h.time_lt hm hn hp (Nat.lt_succ_self i)
  have hnext : n = m + 1 := by
    have htime := h.time_eq hm hn hp (Nat.le_succ i)
    rw [Nat.add_sub_cancel_left] at htime
    have := h.lt_modulus hn.time
    exact Goldilocks.natCast_inj_of_lt this (by omega) htime
  subst hnext
  obtain ⟨c, hc⟩ := (h.lawful.coded r (List.mem_of_getElem? hm.time)).resolve_left hm.active
  have hleads := h.lawful.leads m r s c hm.time hn.time hc
  have hstay : s.memoryPointer = r.memoryPointer :=
    hn.pointer.symm.trans (hp.symm.trans hm.pointer)
  rw [latestWrite_succ hm.time hn.time, if_pos hstay.symm, hstay, ← hr]
  exact Register.value_of_stay hc hleads hstay

/-- Where interweaved rows follow an access, the trace leaves the pointer: if it stayed, its next
row would be recorded in the first of them. -/
theorem pointer_leaves {i j m n : ℕ} {q u : MemoryRow Goldilocks} {r s w : Register Goldilocks}
    (hlast : MemoryRow.LastAccess rows i j q u) (hij : i + 1 < j) (hm : Shows t rows i m q r)
    (hn : Shows t rows j n u s) (hw : t[m + 1]? = some w) : w.memoryPointer ≠ r.memoryPointer := by
  intro hstay
  have hlt := h.time_lt hm hn hlast.pointer hlast.lt
  obtain ⟨l, x, hx⟩ := h.exists_row hw (h.runs.active (Nat.succ_le_of_lt hlt) hw hn.time hn.active)
  obtain ⟨y, hy⟩ := exists_row_of_le hij.le hn.row
  have hyq := h.ordered.countsUp.eq_between (Nat.le_succ i) hij.le hm.row hy hn.row hlast.pointer
  have hyx : y.memoryPointer = x.memoryPointer :=
    hyq.trans (hm.pointer.trans (hstay.symm.trans hx.pointer.symm))
  have hcycle : y.cycle = x.cycle := by
    rw [(h.ordered.follows i q y hm.row hy).cycle hyq, hm.cycle, hx.cycle]
    push_cast
    rfl
  obtain rfl := h.ordered.index_eq hy hx.row hyx hcycle
  exact hlast.gap (i + 1) x (Nat.lt_succ_self i) hij hx.row hx.access

theorem latestWrite_of_gap {i j m n : ℕ} {q u : MemoryRow Goldilocks} {r s : Register Goldilocks}
    (hlast : MemoryRow.LastAccess rows i j q u) (hij : i + 1 < j) (hm : Shows t rows i m q r)
    (hn : Shows t rows j n u s) :
    t.latestWrite s.memoryPointer n = t.latestWrite r.memoryPointer m := by
  have hsr : s.memoryPointer = r.memoryPointer :=
    hn.pointer.symm.trans (hlast.pointer.symm.trans hm.pointer)
  have hlt := h.time_lt hm hn hlast.pointer hlast.lt
  rw [hsr]
  exact h.lawful.latestWrite_of_left hlt.le hm.time hm.active
    (fun _ => h.pointer_leaves hlast hij hm hn)
    fun _ _ hmk hkn => h.no_access_between hlast hm hn hmk hkn

theorem memoryConsistent (hcarry : MemoryRow.CarriesIntoGaps rows) : t.MemoryConsistent := by
  intro n
  induction n using Nat.strong_induction_on with
  | _ n ih =>
    intro s hs hactive
    obtain ⟨j, u, hn⟩ := h.exists_row hs hactive
    rcases h.ordered.lastAccess hn.row with ⟨i, q, hlast⟩ | ⟨hnone, hzero⟩
    · obtain ⟨m, r, hm⟩ := h.exists_time hlast.row hlast.access
      have hr := ih m (h.time_lt hm hn hlast.pointer hlast.lt) r hm.time hm.active
      rcases Nat.lt_or_eq_of_le (Nat.succ_le_of_lt hlast.lt) with hij | rfl
      · obtain ⟨y, hy⟩ : ∃ y, rows[i + 1]? = some y := by
          have := (List.getElem?_eq_some_iff.mp hn.row).1
          exact ⟨rows[i + 1], List.getElem?_eq_getElem (by omega)⟩
        have hyq := h.ordered.countsUp.eq_between (Nat.le_succ i) hij.le hm.row hy hn.row
          hlast.pointer
        have hgap := hlast.gap (i + 1) y (Nat.lt_succ_self i) hij hy
        have hyv := hcarry i j q y u hm.row hy hn.row hij hm.access hgap hn.access hyq
          hlast.pointer.symm
        have huy := h.ordered.value_held hij.le hy hn.row fun k w hik => hlast.gap k w (by omega)
        rw [h.latestWrite_of_gap hlast hij hm hn, ← hr, ← hn.value, huy, hyv, hm.value]
      · exact h.latestWrite_of_adjacent hlast.pointer hm hn hr
    · rw [latestWrite_eq_zero, ← hn.value, hzero]
      intro k v hkn hv hpv
      obtain ⟨l, x, hx⟩ := h.exists_row hv (h.runs.active hkn.le hv hs hactive)
      have hxu : x.memoryPointer = u.memoryPointer :=
        hx.pointer.trans (hpv.trans hn.pointer.symm)
      exact hnone l x (h.row_lt hx hn hxu hkn) hx.row hxu hx.access

theorem carriesIntoGaps (hc : t.MemoryConsistent) : MemoryRow.CarriesIntoGaps rows := by
  intro i j q y u hq hy hu hij hqopen hyopen huopen hyq huq
  -- the first access after row `i` has row `i` as its last access before it
  have hexists : ∃ l, i < l ∧ ∃ w, rows[l]? = some w ∧ w.interweaved = 0 :=
    ⟨j, by omega, u, hu, huopen⟩
  classical
  obtain ⟨hil, w, hw, hwopen⟩ := Nat.find_spec hexists
  have hmin := fun k => Nat.find_min hexists (m := k)
  have hlj : Nat.find hexists ≤ j := Nat.find_min' hexists ⟨by omega, u, hu, huopen⟩
  generalize Nat.find hexists = l at *
  have hlast : MemoryRow.LastAccess rows i l q w := by
    refine ⟨hil, hq, ?_, hqopen, ?_⟩
    · exact (h.ordered.countsUp.eq_between hil.le hlj hq hw hu huq.symm).symm
    · intro k x hik hkl hx hxopen
      exact hmin k hkl ⟨hik, x, hx, hxopen⟩
  have hgap : i + 1 < l := by
    refine lt_of_le_of_ne hil ?_
    rintro rfl
    exact hyopen (Option.some.inj (hy.symm.trans hw) ▸ hwopen)
  obtain ⟨m, r, hm⟩ := h.exists_time hq hqopen
  obtain ⟨n, s, hn⟩ := h.exists_time hw hwopen
  have hvalue := h.latestWrite_of_gap hlast hgap hm hn
  rw [← hc n s hn.time hn.active, ← hc m r hm.time hm.active] at hvalue
  have hwy := h.ordered.value_held hgap.le hy hw fun k x hik => hlast.gap k x (by omega)
  rw [← hwy, hn.value, hvalue, hm.value]

end RecordedBy

/-- Let the processor and the memory constraints accept a trace and a matrix with the same accesses,
neither longer than the field. Then the memory of the trace is consistent exactly when every access
hands its value to the interweaved rows after it. -/
theorem memoryConsistent_iff_carriesIntoGaps {t : Trace} {rows : List (MemoryRow Goldilocks)}
    (ht : Kind.processor.Accepts (t.map Register.toList))
    (hrows : Kind.memory.Accepts (rows.map MemoryRow.toList)) (hruns : t.RunsThenIdles)
    (hshort : List.length t < Goldilocks.modulus) (hrshort : rows.length < Goldilocks.modulus)
    (hsame : t.accesses = MemoryRow.accesses rows) :
    t.MemoryConsistent ↔ MemoryRow.CarriesIntoGaps rows := by
  have h : RecordedBy t rows := ⟨Lawful.of_accepts ht hruns.coded, hruns, hshort,
    MemoryRow.Ordered.of_accepts hrows hrshort, hsame⟩
  exact ⟨h.carriesIntoGaps, h.memoryConsistent⟩

/-- The run of right, left, write, but with a chosen value shown where the pointer comes back. -/
def comeback (v : Goldilocks) : Trace :=
  [⟨0, 0, Instruction.right.code, Instruction.left.code, 0, 0, 0⟩,
    ⟨1, 1, Instruction.left.code, Instruction.write.code, 1, 0, 0⟩,
    ⟨(2 : ℕ), (2 : ℕ), Instruction.write.code, 0, 0, v, v⁻¹⟩,
    ⟨(3 : ℕ), (3 : ℕ), 0, 0, 0, v, v⁻¹⟩]

def comebackMemory (v : Goldilocks) : List (MemoryRow Goldilocks) :=
  [⟨0, 0, 0, 0⟩, ⟨1, 0, v, 1⟩, ⟨(2 : ℕ), 0, v, 0⟩, ⟨1, 1, 0, 0⟩]

theorem comeback_accepts (v : Goldilocks) :
    Kind.processor.Accepts ((comeback v).map Register.toList) := by
  refine (Register.layout.accepts_iff (comeback v)).mpr ⟨?_, _, rfl, ?_⟩
  · simp only [comeback, List.isChain_cons_cons, List.isChain_singleton, and_true]
    refine ⟨?_, ?_, ?_⟩
    · refine (Register.transition_eq_zero_iff_of_code (i := .right) rfl).mpr
        ⟨⟨?_, ?_⟩, ⟨?_, ?_, ?_⟩⟩
      all_goals simp [Register.target, Register.moved, Register.settled?]
    · refine (Register.transition_eq_zero_iff_of_code (i := .left) rfl).mpr
        ⟨⟨?_, ?_⟩, ⟨?_, ?_, ?_⟩⟩
      all_goals simp [Register.target, Register.moved, Register.settled?, one_add_one_eq_two]
    · refine (Register.transition_eq_zero_iff_of_code (i := .write) rfl).mpr
        ⟨⟨?_, ?_⟩, ⟨?_, ?_, ?_⟩⟩
      all_goals simp [Register.target, Register.moved, Register.settled?, two_add_one_eq_three]
  · simp [Register.layout, Register.boundary]

theorem comebackMemory_accepts (v : Goldilocks) :
    Kind.memory.Accepts ((comebackMemory v).map MemoryRow.toList) := by
  refine (MemoryRow.layout.accepts_iff (comebackMemory v)).mpr ⟨?_, _, rfl, ?_⟩
  · simp [comebackMemory, MemoryRow.layout, MemoryRow.transition, sub_sub, one_add_one_eq_two]
  · simp [MemoryRow.layout, MemoryRow.boundary]

theorem comeback_runsThenIdles (v : Goldilocks) : (comeback v).RunsThenIdles := by
  refine ⟨(comeback v).take 3, (comeback v).drop 3, rfl, ?_, ?_⟩
  · simp only [comeback, List.take, List.forall_mem_cons]
    exact ⟨⟨_, rfl⟩, ⟨_, rfl⟩, ⟨_, rfl⟩, by simp⟩
  · simp [comeback]

theorem comeback_accesses (v : Goldilocks) :
    (comeback v).accesses = MemoryRow.accesses (comebackMemory v) := by
  have hright := Instruction.right.code_cast_ne_zero
  have hleft := Instruction.left.code_cast_ne_zero
  have hwrite := Instruction.write.code_cast_ne_zero
  simp only [accesses, MemoryRow.accesses, comeback, comebackMemory]
  simp [hright, hleft, hwrite, Register.access, MemoryRow.access]
  exact List.Perm.swap _ _ _

theorem comeback_carriesIntoGaps :
    (comeback 0).MemoryConsistent ∧ MemoryRow.CarriesIntoGaps (comebackMemory 0) := by
  have hconsistent : (comeback 0).MemoryConsistent := by decide
  have hiff := memoryConsistent_iff_carriesIntoGaps (comeback_accepts 0)
    (comebackMemory_accepts 0) (comeback_runsThenIdles 0) (by decide) (by decide)
    (comeback_accesses 0)
  exact ⟨hconsistent, hiff.mp hconsistent⟩

theorem not_memoryConsistent_of_accepts :
    ¬∀ (t : Trace) (rows : List (MemoryRow Goldilocks)),
      Kind.processor.Accepts (t.map Register.toList) →
      Kind.memory.Accepts (rows.map MemoryRow.toList) → t.RunsThenIdles →
      List.length t < Goldilocks.modulus → rows.length < Goldilocks.modulus →
      t.accesses = MemoryRow.accesses rows → t.MemoryConsistent := by
  intro h
  have hone := h (comeback 1) (comebackMemory 1) (comeback_accepts 1) (comebackMemory_accepts 1)
    (comeback_runsThenIdles 1) (by decide) (by decide) (comeback_accesses 1)
  exact absurd hone (by decide)

end Trace

end TapeAir
