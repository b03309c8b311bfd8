import TapeAir.Proofs.Memory.Accesses
import TapeAir.Proofs.Memory.Weaving
/-! # The timelines of the pointers

What the memory matrix of a trace holds, said without sorting and filling: for each visited pointer,
in ascending order, a row for every cycle from its first access to its last. At the cycle of an
access the row shows that access, and between accesses the value of the latest one. Traces whose
cycles count up, in steps of any size, give exactly these rows.
-/
namespace TapeAir

namespace Trace

def visits (t : Trace) (p : Goldilocks) : Trace := (List.dropLast t).filter (·.memoryPointer = p)

def pointers (t : Trace) : List Goldilocks :=
  sortBy id ((List.dropLast t).map (·.memoryPointer)).dedup

def firstCycle (visits : Trace) : ℕ := (List.head? visits).elim 0 (·.cycle.val)

def lastCycle (visits : Trace) : ℕ := (List.getLast? visits).elim 0 (·.cycle.val)

/-- The row of a pointer at a cycle, from the accesses of that pointer: the access of that cycle, or
else an interweaved row with the value of the latest access before it. -/
def rowAt (visits : Trace) (p : Goldilocks) (c : ℕ) : MemoryRow Goldilocks :=
  match visits.find? (·.cycle.val = c) with
  | some r => ⟨c, p, r.memoryValue, 0⟩
  | none => ⟨c, p, (visits.filter (·.cycle.val < c)).getLast?.elim 0 (·.memoryValue), 1⟩

def cycles (visits : Trace) : List ℕ :=
  List.range' visits.firstCycle (visits.lastCycle - visits.firstCycle + 1)

def timeline (visits : Trace) (p : Goldilocks) : List (MemoryRow Goldilocks) :=
  visits.cycles.map (visits.rowAt p)

/-- The cycles of the rows count up, in steps of any size. -/
def Ascends (t : Trace) : Prop := List.Pairwise (fun r s => r.cycle.val < s.cycle.val) t

instance (t : Trace) : Decidable t.Ascends :=
  inferInstanceAs (Decidable (List.Pairwise (fun r s => r.cycle.val < s.cycle.val) t))

section Pointers
variable {t : Trace}

theorem mem_pointers {p : Goldilocks} :
    p ∈ t.pointers ↔ ∃ r ∈ List.dropLast t, r.memoryPointer = p := by
  rw [pointers, mem_sortBy, List.mem_dedup, List.mem_map]

theorem pointers_pairwise (t : Trace) : t.pointers.Pairwise fun p q => p.val < q.val := by
  have hnodup : t.pointers.Nodup := ((sortBy_perm id _).nodup_iff).mpr (List.nodup_dedup _)
  exact ((sortBy_pairwise id _).and hnodup).imp fun ⟨hle, hne⟩ =>
    lt_of_le_of_ne hle fun he => hne (Goldilocks.ext he)

theorem visits_pointer {p : Goldilocks} : ∀ r ∈ t.visits p, r.memoryPointer = p :=
  fun _ hr => of_decide_eq_true (List.mem_filter.mp hr).2

theorem visits_ne_nil {p : Goldilocks} (hp : p ∈ t.pointers) : t.visits p ≠ [] := by
  obtain ⟨r, hr, hrp⟩ := mem_pointers.mp hp
  exact List.ne_nil_of_mem (List.mem_filter.mpr ⟨hr, decide_eq_true hrp⟩)

theorem Ascends.visits (h : t.Ascends) (p : Goldilocks) : (t.visits p).Ascends :=
  List.Pairwise.sublist (List.filter_sublist.trans (List.dropLast_sublist t)) h

/-- Sorted by pointer, the accesses of each pointer stand together and in their order. -/
theorem sorted_memoryAccesses (t : Trace) :
    sortBy MemoryRow.memoryPointer t.memoryAccesses =
      t.pointers.flatMap fun p => (t.visits p).map MemoryRow.ofRegister := by
  have hmem : ∀ q ∈ t.memoryAccesses, q.memoryPointer ∈ t.pointers := by
    intro q hq
    obtain ⟨r, hr, rfl⟩ := List.mem_map.mp hq
    exact mem_pointers.mpr ⟨r, hr, rfl⟩
  rw [sortBy_eq_flatMap _ t.pointers_pairwise hmem]
  refine List.flatMap_congr fun p _ => ?_
  rw [memoryAccesses, List.filter_map]
  rfl

end Pointers

end Trace

namespace MemoryRow

theorem interweave_append {rows more : List (MemoryRow Goldilocks)}
    (h : ∀ r ∈ rows.getLast?, ∀ s ∈ more.head?, s.memoryPointer ≠ r.memoryPointer) :
    interweave (rows ++ more) = interweave rows ++ interweave more := by
  induction rows with
  | nil => rfl
  | cons r rows ih =>
    cases rows with
    | nil =>
      cases more with
      | nil => rfl
      | cons s more =>
        have hp : s.memoryPointer ≠ r.memoryPointer := h r rfl s rfl
        exact interweave_of_next fun he => absurd he hp
    | cons q rows =>
      rw [List.getLast?_cons_cons] at h
      have ih := ih h
      rw [List.cons_append, List.cons_append, interweave, ← List.cons_append, ih, interweave]
      exact congrArg (r :: ·) (List.append_assoc _ _ _).symm

theorem interweave_flatMap {ps : List Goldilocks} (hps : ps.Nodup)
    {rows : Goldilocks → List (MemoryRow Goldilocks)}
    (h : ∀ p ∈ ps, ∀ r ∈ rows p, r.memoryPointer = p) :
    interweave (ps.flatMap rows) = ps.flatMap fun p => interweave (rows p) := by
  induction ps with
  | nil => rfl
  | cons p ps ih =>
    obtain ⟨hp, hrest⟩ := List.forall_mem_cons.mp h
    obtain ⟨hnotin, hnodup⟩ := List.nodup_cons.mp hps
    rw [List.flatMap_cons, List.flatMap_cons, interweave_append, ih hnodup hrest]
    intro r hr s hs he
    obtain ⟨q, hq, hsq⟩ := List.mem_flatMap.mp (List.mem_of_mem_head? hs)
    have hpq : p = q := by
      rw [← hp r (List.mem_of_getLast? hr), ← hrest q hq s hsq, he]
    exact hnotin (hpq ▸ hq)

end MemoryRow

namespace Trace
variable {p : Goldilocks} {r s : Register Goldilocks} {rest : Trace}

theorem rowAt_self (r : Register Goldilocks) (rest : Trace) (p : Goldilocks) :
    rowAt (r :: rest) p r.cycle.val = ⟨r.cycle, p, r.memoryValue, 0⟩ := by
  simp only [rowAt, List.find?_cons, decide_true, Goldilocks.natCast_val]

/-- After the first access and before the others its value is shown. -/
theorem rowAt_between {c : ℕ} (hfirst : r.cycle.val < c) (hrest : ∀ s ∈ rest, c < s.cycle.val) :
    rowAt (r :: rest) p c = ⟨c, p, r.memoryValue, 1⟩ := by
  have hnone : List.find? (·.cycle.val = c) (r :: rest) = none := by
    rw [List.find?_eq_none, List.forall_mem_cons]
    refine ⟨fun he => hfirst.ne (of_decide_eq_true he), fun s hs he => ?_⟩
    exact (hrest s hs).ne' (of_decide_eq_true he)
  have hlater : rest.filter (·.cycle.val < c) = [] := by
    rw [List.filter_eq_nil_iff]
    intro s hs hlt
    exact absurd (of_decide_eq_true hlt) (hrest s hs).asymm
  simp only [rowAt, hnone, List.filter_cons, hfirst, decide_true, if_true, hlater]
  rfl

theorem rowAt_cons_cons (h : Ascends (r :: s :: rest)) {c : ℕ} (hc : s.cycle.val ≤ c) :
    rowAt (r :: s :: rest) p c = rowAt (s :: rest) p c := by
  have hrs : r.cycle.val < s.cycle.val := (List.pairwise_cons.mp h).1 s List.mem_cons_self
  have hrc : r.cycle.val < c := hrs.trans_le hc
  by_cases hsc : s.cycle.val = c
  · simp only [rowAt, List.find?_cons, hrc.ne, hsc, decide_true, decide_false]
  · have hlt : s.cycle.val < c := lt_of_le_of_ne hc hsc
    simp only [rowAt, List.find?_cons, List.filter_cons, hrc, hrc.ne, hsc, hlt, decide_true,
      decide_false, if_true, List.getLast?_cons_cons]

/-- Up to the second access the rows of a pointer are the first access and its repetitions. -/
theorem map_rowAt_gap (h : Ascends (r :: s :: rest)) (hr : r.memoryPointer = p)
    (hs : s.memoryPointer = p) :
    (List.range' r.cycle.val (s.cycle.val - r.cycle.val)).map (rowAt (r :: s :: rest) p) =
      .ofRegister r :: MemoryRow.gap (.ofRegister r) (.ofRegister s) := by
  obtain ⟨hfirst, hrest⟩ := List.pairwise_cons.mp h
  have hrs : r.cycle.val < s.cycle.val := hfirst s List.mem_cons_self
  obtain ⟨n, hn⟩ := Nat.exists_eq_add_of_lt hrs
  have hmissing : MemoryRow.missing (.ofRegister r) (.ofRegister s) = n :=
    MemoryRow.missing_of_val hn
  have hgap : MemoryRow.gap (.ofRegister r) (.ofRegister s) =
      (MemoryRow.ofRegister r).repeats n := by
    rw [MemoryRow.gap_eq (hs.trans hr.symm), ← hmissing]
    rfl
  have hcount : s.cycle.val - r.cycle.val = n + 1 := by omega
  rw [hgap, hcount, List.range'_succ, List.map_cons, rowAt_self, ← hr]
  refine congrArg (_ :: ·) ?_
  rw [MemoryRow.repeats, List.range'_eq_map_range, List.map_map]
  refine List.map_congr_left fun k hk => ?_
  have hk := List.mem_range.mp hk
  rw [Function.comp_apply, rowAt_between (by omega)]
  · rw [MemoryRow.repeated, add_assoc, Nat.add_comm 1 k, Nat.cast_add, Goldilocks.natCast_val]
    rfl
  · intro q hq
    rcases List.mem_cons.mp hq with rfl | hq
    · omega
    · have := (List.pairwise_cons.mp hrest).1 q hq
      omega

theorem firstCycle_le_lastCycle (h : Ascends (r :: rest)) :
    firstCycle (r :: rest) ≤ lastCycle (r :: rest) := by
  have hlast := List.getLast?_eq_some_getLast (List.cons_ne_nil r rest)
  rw [lastCycle, hlast]
  rcases List.mem_cons.mp (List.getLast_mem (List.cons_ne_nil r rest)) with he | hmem
  · rw [he]
    exact le_rfl
  · exact ((List.pairwise_cons.mp h).1 _ hmem).le

theorem cycles_singleton (r : Register Goldilocks) : cycles [r] = [r.cycle.val] := by
  change List.range' r.cycle.val (r.cycle.val - r.cycle.val + 1) = [r.cycle.val]
  rw [Nat.sub_self]
  rfl

theorem cycles_cons_cons (h : Ascends (r :: s :: rest)) :
    cycles (r :: s :: rest) =
      List.range' r.cycle.val (s.cycle.val - r.cycle.val) ++ cycles (s :: rest) := by
  have hrs : r.cycle.val < s.cycle.val := (List.pairwise_cons.mp h).1 s List.mem_cons_self
  have hlast : s.cycle.val ≤ lastCycle (s :: rest) :=
    firstCycle_le_lastCycle (List.pairwise_cons.mp h).2
  have hlater : lastCycle (r :: s :: rest) = lastCycle (s :: rest) := by
    rw [lastCycle, List.getLast?_cons_cons, lastCycle]
  have hfirst (q : Register Goldilocks) (more : Trace) : firstCycle (q :: more) = q.cycle.val := rfl
  obtain ⟨m, hm⟩ := Nat.exists_eq_add_of_le hrs.le
  obtain ⟨n, hn⟩ := Nat.exists_eq_add_of_le hlast
  have hcount : r.cycle.val + m + n - r.cycle.val + 1 = m + (n + 1) := by omega
  rw [cycles, cycles, hlater, hfirst, hfirst, hn, hm, hcount, Nat.add_sub_cancel_left,
    Nat.add_sub_cancel_left, List.range'_append_1]

/-- Filling the accesses of one pointer gives its timeline. -/
theorem interweave_visits {visits : Trace} (hne : visits ≠ []) (h : visits.Ascends)
    (hp : ∀ r ∈ visits, r.memoryPointer = p) :
    MemoryRow.interweave (visits.map MemoryRow.ofRegister) = visits.timeline p := by
  induction visits with
  | nil => exact absurd rfl hne
  | cons r rest ih =>
    obtain ⟨hr, hrest⟩ := List.forall_mem_cons.mp hp
    cases rest with
    | nil =>
      rw [timeline, cycles_singleton, ← hr]
      exact congrArg ([·]) (rowAt_self r [] r.memoryPointer).symm
    | cons s rest =>
      have htail : Ascends (s :: rest) := (List.pairwise_cons.mp h).2
      have hsame : (cycles (s :: rest)).map (rowAt (r :: s :: rest) p) =
          timeline (s :: rest) p := by
        refine List.map_congr_left fun c hc => ?_
        exact rowAt_cons_cons h (List.mem_range'_1.mp hc).1
      rw [timeline, cycles_cons_cons h, List.map_append, hsame,
        map_rowAt_gap h hr (hrest s List.mem_cons_self), ← ih (List.cons_ne_nil s rest) htail hrest]
      rfl

/-- From a trace without idle rows before its last and whose cycles count up, the walk down the
sorted accesses ends, and what it leaves is derived: the timelines of the pointers in ascending
order. Only the accesses themselves are not interweaved, and a timeline has a row for each cycle
from the first of its pointer to the last. -/
theorem derive_memory_timelines {t : Trace} (h : t.Unpadded) (hascends : t.Ascends)
    (program : Program) :
    Kind.memory.derive t program = .ok (t.memoryRows.map MemoryRow.toList) ∧
      (⟨0, sortBy MemoryRow.memoryPointer t.memoryAccesses⟩ : MemoryRow.Walk).Ends t.memoryRows ∧
      t.memoryRows = (t.pointers.flatMap fun p => (t.visits p).timeline p) ∧
      (t.memoryRows.filter (·.interweaved = 0)).Perm t.memoryAccesses ∧
      List.length t.memoryRows =
        (t.pointers.map fun p => (t.visits p).lastCycle - (t.visits p).firstCycle + 1).sum := by
  have hpointer : ∀ p ∈ t.pointers, ∀ r ∈ (t.visits p).map MemoryRow.ofRegister,
      r.memoryPointer = p := by
    intro p _ q hq
    obtain ⟨r, hr, rfl⟩ := List.mem_map.mp hq
    exact visits_pointer r hr
  have hrows : t.memoryRows = t.pointers.flatMap fun p => (t.visits p).timeline p := by
    rw [memoryRows_eq, sorted_memoryAccesses,
      MemoryRow.interweave_flatMap (pointers_pairwise t).nodup hpointer]
    exact List.flatMap_congr fun p hp =>
      interweave_visits (visits_ne_nil hp) (hascends.visits p) visits_pointer
  refine ⟨derive_memory h program, ?_, hrows, ?_, ?_⟩
  · exact MemoryRow.Walk.ends_interweave [] (sortBy MemoryRow.memoryPointer t.memoryAccesses)
  · rw [memoryRows_eq, MemoryRow.filter_interweave, memoryAccesses]
    have hperm := (sortBy_perm MemoryRow.memoryPointer t.memoryAccesses).filter (·.interweaved = 0)
    rwa [memoryAccesses, MemoryRow.filter_map_ofRegister] at hperm
  · rw [hrows, List.length_flatMap]
    simp only [timeline, cycles, List.length_map, List.length_range']

def hops : Trace :=
  [⟨0, 0, Instruction.right.code, 0, 1, (5 : ℕ), 1⟩, ⟨1, 1, Instruction.left.code, 0, 0, 1, 1⟩,
    ⟨(4 : ℕ), 1, Instruction.right.code, 0, 1, (7 : ℕ), 1⟩,
    ⟨(5 : ℕ), 0, Instruction.left.code, 0, 0, (3 : ℕ), 1⟩,
    ⟨(6 : ℕ), 1, Instruction.right.code, 0, 1, (7 : ℕ), 1⟩, ⟨(8 : ℕ), 1, 0, 0, 0, 0, 0⟩]

theorem hops_timelines :
    hops.memoryRows =
        [⟨1, 0, 1, 0⟩, ⟨(2 : ℕ), 0, 1, 1⟩, ⟨(3 : ℕ), 0, 1, 1⟩, ⟨(4 : ℕ), 0, 1, 1⟩,
          ⟨(5 : ℕ), 0, (3 : ℕ), 0⟩, ⟨0, 1, (5 : ℕ), 0⟩, ⟨1, 1, (5 : ℕ), 1⟩,
          ⟨(2 : ℕ), 1, (5 : ℕ), 1⟩, ⟨(3 : ℕ), 1, (5 : ℕ), 1⟩, ⟨(4 : ℕ), 1, (7 : ℕ), 0⟩,
          ⟨(5 : ℕ), 1, (7 : ℕ), 1⟩, ⟨(6 : ℕ), 1, (7 : ℕ), 0⟩] ∧
      Kind.memory.derive hops #[] = .ok (hops.memoryRows.map MemoryRow.toList) ∧
      (⟨0, sortBy MemoryRow.memoryPointer hops.memoryAccesses⟩ : MemoryRow.Walk).Ends
        hops.memoryRows ∧
      hops.memoryRows = (hops.pointers.flatMap fun p => (hops.visits p).timeline p) ∧
      (hops.memoryRows.filter (·.interweaved = 0)).Perm hops.memoryAccesses ∧
      List.length hops.memoryRows =
        (hops.pointers.map fun p =>
          (hops.visits p).lastCycle - (hops.visits p).firstCycle + 1).sum :=
  ⟨by cbv, derive_memory_timelines (by decide) (by decide) #[]⟩

end Trace

end TapeAir
