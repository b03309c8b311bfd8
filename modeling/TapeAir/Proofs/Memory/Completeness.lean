import TapeAir.Proofs.Machine.Completeness
import TapeAir.Proofs.Memory.Accesses
/-! # The memory table of a run

The accesses of a run fit: a pointer starts at zero and keeps its value while the run is elsewhere.
So the derived and padded matrix is accepted exactly when the visited pointers are an initial
segment.
-/
namespace TapeAir.Trace

theorem getElem?_memoryAccesses {t : Trace} {i : ℕ} {q : MemoryRow Goldilocks}
    (h : t.memoryAccesses[i]? = some q) :
    ∃ r, t[i]? = some r ∧ i + 1 < List.length t ∧ q = MemoryRow.ofRegister r := by
  rw [memoryAccesses, List.getElem?_map, Option.map_eq_some_iff] at h
  obtain ⟨r, hr, rfl⟩ := h
  have hi := (List.getElem?_eq_some_iff.mp hr).1
  rw [List.length_dropLast] at hi
  rw [getElem?_dropLast (by omega)] at hr
  exact ⟨r, hr, by omega, rfl⟩

theorem memoryAccesses_getElem? {t : Trace} {i : ℕ} {r : Register Goldilocks}
    (hr : t[i]? = some r) (hi : i + 1 < List.length t) :
    t.memoryAccesses[i]? = some (MemoryRow.ofRegister r) := by
  rw [memoryAccesses, List.getElem?_map, getElem?_dropLast hi, hr]
  rfl

theorem exists_cycle {t : Trace} {k : ℕ} {q : MemoryRow Goldilocks}
    (hq : (sortBy MemoryRow.memoryPointer t.memoryAccesses)[k]? = some q) :
    ∃ (i : ℕ) (r : Register Goldilocks), t[i]? = some r ∧ i + 1 < List.length t ∧
      q = MemoryRow.ofRegister r := by
  have hmem := (mem_sortBy MemoryRow.memoryPointer).mp (List.mem_of_getElem? hq)
  obtain ⟨i, hi⟩ := List.mem_iff_getElem?.mp hmem
  exact ⟨i, getElem?_memoryAccesses hi⟩

namespace Records
variable {program : Program} {input : List Goldilocks} {states : List Machine} {t : Trace}
variable (h : Records program input states t) (hshort : List.length t < Goldilocks.modulus)
include h hshort

theorem cycle_val {i : ℕ} {r : Register Goldilocks} (hr : t[i]? = some r) : r.cycle.val = i := by
  rw [h.lawful.cycle_eq hr]
  exact Goldilocks.natCast_val_of_lt ((List.getElem?_eq_some_iff.mp hr).1.trans hshort)

theorem memoryAccesses_pairwise :
    t.memoryAccesses.Pairwise fun r s => r.cycle.val < s.cycle.val := by
  rw [List.pairwise_iff_getElem]
  intro i j hi hj hij
  obtain ⟨r, hr, -, hir⟩ := getElem?_memoryAccesses (List.getElem?_eq_getElem hi)
  obtain ⟨s, hs, -, hjs⟩ := getElem?_memoryAccesses (List.getElem?_eq_getElem hj)
  rw [hir, hjs]
  change r.cycle.val < s.cycle.val
  rwa [h.cycle_val hshort hr, h.cycle_val hshort hs]

theorem pairwise_before :
    (sortBy MemoryRow.memoryPointer t.memoryAccesses).Pairwise MemoryRow.Before :=
  MemoryRow.pairwise_before_sortBy (h.memoryAccesses_pairwise hshort)

/-- If the run visited the pointer of a sorted access before, the sorted neighbour has that pointer
and is at least as late. -/
theorem neighbour_of_visit {k j n : ℕ} {q : MemoryRow Goldilocks} {s u : Register Goldilocks}
    (hq : (sortBy MemoryRow.memoryPointer t.memoryAccesses)[k]? = some q)
    (hs : (sortBy MemoryRow.memoryPointer t.memoryAccesses)[k + 1]? = some (.ofRegister s))
    (hsj : t[j]? = some s) (hj : j + 1 < List.length t) (hun : t[n]? = some u) (hnj : n < j)
    (hp : u.memoryPointer = s.memoryPointer) :
    q.memoryPointer = s.memoryPointer ∧ n ≤ q.cycle.val := by
  have hcu := h.cycle_val hshort hun
  have hcs := h.cycle_val hshort hsj
  have hmem := (mem_sortBy MemoryRow.memoryPointer).mpr
    (List.mem_of_getElem? (memoryAccesses_getElem? hun (by omega)))
  have hbefore : (MemoryRow.ofRegister u).Before (.ofRegister s) := by
    refine .inr ⟨hp, ?_⟩
    change u.cycle.val < s.cycle.val
    omega
  have hle : q.memoryPointer.val ≤ s.memoryPointer.val := by
    obtain ⟨_, rfl⟩ := List.getElem?_eq_some_iff.mp hq
    obtain ⟨hk, hs⟩ := List.getElem?_eq_some_iff.mp hs
    have hpairwise := sortBy_pairwise MemoryRow.memoryPointer t.memoryAccesses
    have hle := List.pairwise_iff_getElem.mp hpairwise k (k + 1) (by omega) hk (Nat.lt_succ_self k)
    rwa [hs] at hle
  rcases MemoryRow.eq_or_before (h.pairwise_before hshort) hq hs hmem hbefore with
    rfl | hlt | ⟨heq, hlt⟩
  · exact ⟨hp, hcu.ge⟩
  · change u.memoryPointer.val < q.memoryPointer.val at hlt
    rw [hp] at hlt
    omega
  · change u.memoryPointer = q.memoryPointer at heq
    change u.cycle.val < q.cycle.val at hlt
    exact ⟨heq.symm.trans hp, by omega⟩

theorem isChain_fits :
    (sortBy MemoryRow.memoryPointer t.memoryAccesses).IsChain MemoryRow.Fits := by
  rw [List.isChain_iff_getElem]
  intro k hk
  have hq := List.getElem?_eq_getElem (Nat.lt_of_succ_lt hk)
  have hs := List.getElem?_eq_getElem hk
  have hbefore := List.pairwise_iff_getElem.mp (h.pairwise_before hshort) k (k + 1) (by omega) hk
    (Nat.lt_succ_self k)
  obtain ⟨i, r, hr, -, hqr⟩ := exists_cycle hq
  obtain ⟨j, s, hsj, hj, hss⟩ := exists_cycle hs
  rw [hqr] at hq hbefore ⊢
  rw [hss] at hs hbefore ⊢
  have hvalue : s.memoryValue = t.latestWrite s.memoryPointer j := h.value_eq hsj
  refine ⟨rfl, rfl, ?_, ?_⟩
  · intro hp hcycle
    change s.memoryPointer = r.memoryPointer at hp
    change s.cycle ≠ r.cycle + 1 at hcycle
    have hij : i < j := by
      rcases hbefore with hlt | ⟨-, hlt⟩
      · change r.memoryPointer.val < s.memoryPointer.val at hlt
        rw [hp] at hlt
        omega
      · change r.cycle.val < s.cycle.val at hlt
        rwa [h.cycle_val hshort hr, h.cycle_val hshort hsj] at hlt
    have hgap : i + 1 ≠ j := by
      rintro rfl
      exact hcycle (h.lawful.ticks i r s hr hsj).cycle
    have haway (n : ℕ) (u : Register Goldilocks) (hin : i < n) (hnj : n < j)
        (hu : t[n]? = some u) : u.memoryPointer ≠ r.memoryPointer := by
      intro hup
      have hle := (h.neighbour_of_visit hshort hq hs hsj hj hu hnj (hup.trans hp.symm)).2
      change n ≤ r.cycle.val at hle
      rw [h.cycle_val hshort hr] at hle
      omega
    have hactive : r.currentInstruction ≠ 0 := by
      obtain ⟨c, hc⟩ := h.exists_instruction hr (by omega)
      exact hc ▸ c.code_cast_ne_zero
    change s.memoryValue = r.memoryValue
    rw [hvalue, hp, h.lawful.latestWrite_of_left hij.le hr hactive
      (fun s hs => haway (i + 1) s (by omega) (by omega) hs) haway]
    exact (h.value_eq hr).symm
  · intro hp
    change s.memoryPointer ≠ r.memoryPointer at hp
    refine hvalue.trans (latestWrite_eq_zero fun n u hnj hu hus => hp ?_)
    exact (h.neighbour_of_visit hshort hq hs hsj hj hu hnj hus).1.symm

omit hshort in
theorem one_lt_length (hne : program ≠ #[]) : 1 < List.length t := by
  by_contra hlt
  have hlength : states.length ≤ 1 := by
    rw [h.rows, List.length_map] at hlt
    omega
  have hstart := h.start
  cases hstates : states with
  | nil => simp [hstates] at hstart
  | cons m rest =>
    obtain rfl : rest = [] := by simpa [hstates] using hlength
    rw [hstates] at hstart
    obtain rfl := Option.some.inj hstart
    have hhalts : program[0]? = none := h.halts { input } (by simp [hstates])
    exact hne (Array.size_eq_zero_iff.mp (Nat.le_zero.mp (Array.getElem?_eq_none_iff.mp hhalts)))

omit hshort in
theorem exists_first (hne : program ≠ #[]) :
    ∃ q ∈ t.memoryAccesses, q.cycle = 0 ∧ q.memoryPointer = 0 ∧ q.memoryValue = 0 := by
  have hlength := h.one_lt_length hne
  have hr : t[0]? = some t[0] := List.getElem?_eq_getElem (by omega)
  obtain ⟨hcycle, -, hpointer, hvalue⟩ := h.lawful.starts _ hr
  exact ⟨_, List.mem_of_getElem? (memoryAccesses_getElem? hr hlength), hcycle, hpointer, hvalue⟩

theorem exists_head (hne : program ≠ #[]) :
    ∃ q, (sortBy MemoryRow.memoryPointer t.memoryAccesses).head? = some q ∧ MemoryRow.Starts q := by
  obtain ⟨q, hq, hcycle, hpointer, hvalue⟩ := h.exists_first hne
  exact ⟨q, MemoryRow.head?_sortBy (h.memoryAccesses_pairwise hshort) hq hpointer hcycle,
    hcycle, hpointer, hvalue⟩

theorem memory_table (hne : program ≠ #[]) (d : Domain) :
    ∃ m, Table.ofTrace .memory t program d = .ok m ∧
      m.matrix = (MemoryRow.filling.padded t.memoryRows).map MemoryRow.toList ∧
      (∃ row ∈ m.matrix.head?, rowViolations Kind.memory.baseBoundary row = .ok []) ∧
      (pairViolations Kind.memory.baseTransition m.matrix = .ok [] ↔
        ∃ last : ℕ, ∀ x : Goldilocks,
          (∃ r ∈ List.dropLast t, r.memoryPointer = x) ↔ x.val ≤ last) := by
  have hlength := h.one_lt_length hne
  obtain ⟨m, hm, hmatrix⟩ := exists_ofTrace_memory hlength h.unpadded program d
  obtain ⟨r, n, hlast, hpadded⟩ :=
    MemoryRow.filling.exists_padded_eq (memoryRows_ne_nil hlength)
  obtain ⟨q, hq, hstarts⟩ := h.exists_head hshort hne
  refine ⟨m, hm, hmatrix, ⟨q.toList, ?_, ?_⟩, ?_⟩
  · have hhead : (t.memoryRows ++ MemoryRow.filling.extra r n).head? = some q := by
      rw [List.head?_append, memoryRows_eq, MemoryRow.head?_interweave, hq]
      rfl
    rw [hmatrix, hpadded, List.head?_map, hhead]
    rfl
  · refine (MemoryRow.layout.rowViolations_iff q).mpr ?_
    exact (MemoryRow.boundary_eq_zero_iff q).mpr hstarts
  · have hfollows : (pairViolations Kind.memory.baseTransition m.matrix = .ok []) ↔
        (t.memoryRows ++ MemoryRow.filling.extra r n).IsChain MemoryRow.Follows := by
      rw [hmatrix, hpadded]
      refine (MemoryRow.layout.pairViolations_iff _).trans (List.IsChain.iff ?_)
      exact MemoryRow.transition_eq_zero_iff
    rw [hfollows, MemoryRow.isChain_pad hlast, memoryRows_eq,
      MemoryRow.isChain_interweave (h.isChain_fits hshort),
      MemoryRow.isChain_adjoins_iff hq hstarts.pointer (sortBy_pairwise MemoryRow.memoryPointer _)]
    simp only [mem_sortBy, memoryAccesses, List.mem_map, exists_exists_and_eq_and]
    rfl

end Records

end TapeAir.Trace

namespace TapeAir

/-- The derived and padded memory matrix of a run that ends meets the boundary constraints, and
meets the transition constraints exactly when the pointers of all rows but the last are an initial
segment of the field. -/
theorem memory_table_complete {fuel : ℕ} {program : Program} {input : List Goldilocks} {run : Run}
    (hne : program ≠ #[]) (hrun : simulate fuel program input = some (.ok run))
    (hshort : List.length run.trace < Goldilocks.modulus) (d : Domain) :
    ∃ m, Table.ofTrace .memory run.trace program d = .ok m ∧
      m.matrix = (MemoryRow.filling.padded run.trace.memoryRows).map MemoryRow.toList ∧
      (∃ row ∈ m.matrix.head?, rowViolations Kind.memory.baseBoundary row = .ok []) ∧
      (pairViolations Kind.memory.baseTransition m.matrix = .ok [] ↔
        ∃ last : ℕ, ∀ x : Goldilocks,
          (∃ r ∈ List.dropLast run.trace, r.memoryPointer = x) ↔ x.val ≤ last) := by
  obtain ⟨states, h⟩ := exists_records hrun
  exact h.memory_table hshort hne d

/-- The program `><+.`, which visits pointer one and returns to zero. -/
def stepAside : Program :=
  #[Instruction.right.code, Instruction.left.code, Instruction.increment.code,
    Instruction.write.code]

def steppingAside : Run :=
  ⟨[⟨0, 0, Instruction.right.code, Instruction.left.code, 0, 0, 0⟩,
    ⟨1, 1, Instruction.left.code, Instruction.increment.code, 1, 0, 0⟩,
    ⟨(2 : ℕ), (2 : ℕ), Instruction.increment.code, Instruction.write.code, 0, 0, 0⟩,
    ⟨(3 : ℕ), (3 : ℕ), Instruction.write.code, 0, 0, 1, 1⟩,
    ⟨(4 : ℕ), (4 : ℕ), 0, 0, 0, 1, 1⟩], [1]⟩

/-- Its memory matrix: one row fills the gap of pointer zero, and three are padding. -/
def steppingAsideRows : List (MemoryRow Goldilocks) :=
  [⟨0, 0, 0, 0⟩, ⟨1, 0, 0, 1⟩, ⟨(2 : ℕ), 0, 0, 0⟩, ⟨(3 : ℕ), 0, 1, 0⟩, ⟨1, 1, 0, 0⟩,
    ⟨(2 : ℕ), 1, 0, 1⟩, ⟨(3 : ℕ), 1, 0, 1⟩, ⟨(4 : ℕ), 1, 0, 1⟩]

theorem simulate_steppingAside : simulate 5 stepAside [] = some (.ok steppingAside) := by cbv

/-- This matrix is accepted. The run of `belowZero` visits no initial segment, and its matrix is
refused. -/
theorem steppingAside_memory_table :
    simulate 5 stepAside [] = some (.ok steppingAside) ∧
      (∃ m, Table.ofTrace .memory steppingAside.trace stepAside ⟨2, 1, 1⟩ = .ok m ∧
        m.matrix = steppingAsideRows.map MemoryRow.toList ∧
        (∃ row ∈ m.matrix.head?, rowViolations Kind.memory.baseBoundary row = .ok []) ∧
        pairViolations Kind.memory.baseTransition m.matrix = .ok []) ∧
      simulate 3 leftDecrement [] = some (.ok belowZero) ∧
      ∃ m, Table.ofTrace .memory belowZero.trace leftDecrement ⟨2, 1, 1⟩ = .ok m ∧
        (∃ row ∈ m.matrix.head?, rowViolations Kind.memory.baseBoundary row = .ok []) ∧
        pairViolations Kind.memory.baseTransition m.matrix ≠ .ok [] := by
  obtain ⟨m, hm, hmatrix, hboundary, htransition⟩ :=
    memory_table_complete (by decide) simulate_steppingAside (by decide) ⟨2, 1, 1⟩
  obtain ⟨m', hm', -, hboundary', htransition'⟩ :=
    memory_table_complete (by decide) simulate_belowZero (by decide) ⟨2, 1, 1⟩
  refine ⟨simulate_steppingAside, ⟨m, hm, ?_, hboundary, htransition.mpr ⟨1, fun x => ?_⟩⟩,
    simulate_belowZero, m', hm', hboundary', fun haccepted => ?_⟩
  · have hrows : MemoryRow.filling.padded steppingAside.trace.memoryRows = steppingAsideRows := by
      cbv
    rw [hmatrix, hrows]
  · have hpointers : (List.dropLast steppingAside.trace).map (·.memoryPointer) = [0, 1, 0, 0] := rfl
    rw [← List.mem_map, hpointers]
    simp only [List.mem_cons, List.not_mem_nil, or_false, Goldilocks.ext_iff, Goldilocks.val_zero,
      Goldilocks.val_one]
    omega
  · obtain ⟨last, hlast⟩ := htransition'.mp haccepted
    have hpointers : (List.dropLast belowZero.trace).map (·.memoryPointer) = [0, -1] := rfl
    simp only [← List.mem_map, hpointers] at hlast
    have hbelow := (hlast (-1)).mp (by decide)
    have hone := (hlast 1).mpr (le_trans (by decide) hbelow)
    exact absurd hone (by decide)

end TapeAir
