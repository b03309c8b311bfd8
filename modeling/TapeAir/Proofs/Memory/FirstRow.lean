import TapeAir.Proofs.Argument.Column
import TapeAir.Proofs.Memory.Consistency
/-! # The flag of the first memory row

No constraint of the memory table restricts the flag of the first row. But the processor accesses
the cell of that row in its first cycle. Where the factor of that access is zero both terminals are
zero, and then some row of the memory table contributes zero. No other row than the first one can:
the access occurs nowhere else.
-/
namespace TapeAir

/-- The argument columns of a processor table and of a memory table start with one product and reach
one terminal. -/
structure SharedProduct (ch : Challenges) (t : Trace) (rows : List (MemoryRow Goldilocks))
    (initial : Cubic) (terminals : Permutations) : Prop where
  processor : ∃ columns : List (Register Goldilocks × Permutations), columns.map Prod.fst = t ∧
    (∀ a ∈ columns.head?, a.2.memory = initial) ∧
    Kind.processor.Carries ch terminals (columns.map fun a => a.1.full a.2)
  memory : ∃ columns : List (MemoryRow Goldilocks × Cubic), columns.map Prod.fst = rows ∧
    (∀ a ∈ columns.head?, a.2 = initial) ∧
    Kind.memory.Carries ch terminals (columns.map fun a => a.1.full a.2)

namespace SharedProduct
variable {ch : Challenges} {t : Trace} {rows : List (MemoryRow Goldilocks)} {initial : Cubic}
  {terminals : Permutations} (h : SharedProduct ch t rows initial terminals)
include h

theorem terminal_eq_of_processor (hcoded : t.Coded) :
    terminals.memory = initial * ch.memoryWeights.product t.accesses := by
  obtain ⟨columns, rfl, hfirst, hcarries⟩ := h.processor
  have hthreads := ((Register.carries_iff hcoded ch terminals).mp hcarries).2
  cases columns with
  | nil => obtain ⟨a, ha, -⟩ := hthreads.ends; cases ha
  | cons a columns =>
    obtain rfl := hfirst a rfl
    have hhead : ∀ b ∈ (a :: columns).head?, b.2 = a.2 := by simp
    rw [hthreads.last_eq hhead, Extension.foldl_processorNext]

theorem terminal_eq_of_memory :
    terminals.memory = initial * (rows.map (·.share ch.memoryWeights)).prod := by
  obtain ⟨columns, rfl, hfirst, hcarries⟩ := h.memory
  have hthreads := ((MemoryRow.carries_iff columns ch terminals).mp hcarries).2
  rw [hthreads.last_eq hfirst, MemoryRow.foldl_share]

theorem exists_share_eq_zero (hcoded : t.Coded) (hinitial : initial ≠ 0)
    (hzero : ch.memoryWeights.product t.accesses = 0) :
    ∃ r ∈ rows, r.share ch.memoryWeights = 0 := by
  have hterminal := h.terminal_eq_of_processor hcoded
  rw [hzero, mul_zero, h.terminal_eq_of_memory, mul_eq_zero, or_iff_right hinitial,
    List.prod_eq_zero_iff] at hterminal
  exact List.mem_map.mp hterminal

end SharedProduct

theorem SharedProduct.of_accesses_eq {t : Trace} {rows : List (MemoryRow Goldilocks)}
    (ht : Kind.processor.Accepts (t.map Register.toList)) (hcoded : t.Coded)
    (hrows : Kind.memory.Accepts (rows.map MemoryRow.toList))
    (hflags : ∀ r ∈ rows, r.interweaved = 0 ∨ r.interweaved = 1)
    (hsame : t.accesses = MemoryRow.accesses rows) (ch : Challenges) (initial : Permutations) :
    SharedProduct ch t rows initial.memory (t.foldl (Extension.processorNext ch) initial) := by
  obtain ⟨hregisters, r, hr, -⟩ := (Register.layout.accepts_iff t).mp ht
  obtain ⟨hmemory, q, hq, -⟩ := (MemoryRow.layout.accepts_iff rows).mp hrows
  constructor
  · obtain ⟨columns, rfl, hfirst, hthreads⟩ := exists_threads (Extension.processorNext ch)
      (List.ne_nil_of_mem (List.mem_of_mem_head? hr)) initial
    refine ⟨columns, rfl, ?_, (Register.carries_iff hcoded ch _).mpr ⟨hregisters, hthreads⟩⟩
    intro a ha
    rw [hfirst a ha]
  · obtain ⟨columns, rfl, hfirst, hthreads⟩ := exists_threads
      (fun x r => x * MemoryRow.share ch.memoryWeights r)
      (List.ne_nil_of_mem (List.mem_of_mem_head? hq)) initial.memory
    rw [MemoryRow.foldl_share, MemoryRow.prod_share hflags] at hthreads
    refine ⟨columns, rfl, hfirst, (MemoryRow.carries_iff columns ch _).mpr ⟨hmemory, ?_⟩⟩
    rwa [Extension.foldl_processorNext, hsame]

/-- Under these challenges the factor of an access is zero exactly at the origin. -/
def Challenges.origin : Challenges where
  a := 0
  b := 0
  c := 0
  d := 1
  e := ⟨0, 1, 0⟩
  f := ⟨0, 0, 1⟩
  alpha := 0
  beta := 0
  gamma := 0
  delta := 0
  eta := 0

theorem Challenges.origin_factor_eq_zero_iff (x : Triple) :
    origin.memoryWeights.point - origin.memoryWeights.compress x = 0 ↔ x = (0, 0, 0) := by
  have horigin : origin.memoryWeights.compress (0, 0, 0) = 0 := by
    simp [Weights.compress, Cubic.lift_interprets.zero]
  change 0 - _ = 0 ↔ _
  rw [zero_sub, neg_eq_zero, ← horigin]
  exact (Weights.compress_powers_injective 0).eq_iff

namespace Trace

theorem product_origin_eq_zero {t : Trace}
    (ht : Kind.processor.Accepts (t.map Register.toList)) (hcoded : t.Coded)
    (hactive : ∀ r ∈ List.head? t, r.currentInstruction ≠ 0) :
    Challenges.origin.memoryWeights.product t.accesses = 0 := by
  obtain ⟨-, r, hhead, -⟩ := (Register.layout.accepts_iff t).mp ht
  have hr : t[0]? = some r := List.head?_eq_getElem?.symm.trans hhead
  obtain ⟨hcycle, -, hpointer, hvalue⟩ := (Lawful.of_accepts ht hcoded).starts r hr
  have haccess : r.access = (0, 0, 0) := by rw [Register.access, hcycle, hpointer, hvalue]
  have hmem : ((0, 0, 0) : Triple) ∈ t.accesses :=
    mem_accesses.mpr ⟨0, r, hr, hactive r hhead, haccess⟩
  refine Multiset.prod_eq_zero (Multiset.mem_map.mpr ⟨_, hmem, ?_⟩)
  exact (Challenges.origin_factor_eq_zero_iff _).mpr rfl

end Trace

/-- In a memory table that the constraints accept, only the first row can stand for the origin. -/
theorem MemoryRow.Ordered.share_origin_ne_zero {rows : List (MemoryRow Goldilocks)}
    (h : Ordered rows) {i : ℕ} {r : MemoryRow Goldilocks} (hr : rows[i + 1]? = some r) :
    r.share Challenges.origin.memoryWeights ≠ 0 := by
  obtain ⟨q, hq⟩ := exists_row_of_le (Nat.zero_le _) hr
  obtain ⟨_, _, hfollows⟩ := h.predecessor hr
  rcases hfollows.flag with hopen | hfilled
  · rw [share_of_access hopen, ne_eq, Challenges.origin_factor_eq_zero_iff]
    intro haccess
    obtain ⟨hcycle, hpointer⟩ : r.cycle = 0 ∧ r.memoryPointer = 0 := by
      rw [access, Prod.mk.injEq, Prod.mk.injEq] at haccess
      exact ⟨haccess.1, haccess.2.1⟩
    have hstart := h.starts q hq
    have hindex := h.index_eq hq hr (hstart.pointer.trans hpointer.symm)
      (hstart.cycle.trans hcycle.symm)
    exact Nat.succ_ne_zero i hindex.symm
  · rw [share_of_interweaved hfilled]
    exact one_ne_zero

/-- In the first row the factor of the origin is zero, so that the flag alone is left. -/
theorem MemoryRow.Starts.share_origin {r : MemoryRow Goldilocks} (h : Starts r) :
    r.share Challenges.origin.memoryWeights = Cubic.lift r.interweaved := by
  have haccess : r.access = (0, 0, 0) := by rw [access, h.cycle, h.pointer, h.value]
  rw [share, (Challenges.origin_factor_eq_zero_iff _).mpr haccess, zero_mul, zero_add]

namespace Trace

/-- Let the base constraints accept a trace that begins with an instruction and a memory matrix with
fewer rows than the field has elements. If under all challenges the memory argument leads from one
nonzero product to one terminal in both tables, the first row of the memory matrix is an access. -/
theorem interweaved_head_eq_zero {t : Trace} {rows : List (MemoryRow Goldilocks)}
    (ht : Kind.processor.Accepts (t.map Register.toList)) (hcoded : t.Coded)
    (hactive : ∀ r ∈ List.head? t, r.currentInstruction ≠ 0)
    (hrows : Kind.memory.Accepts (rows.map MemoryRow.toList))
    (hshort : rows.length < Goldilocks.modulus)
    (hargument : ∀ ch, ∃ initial ≠ 0, ∃ terminals, SharedProduct ch t rows initial terminals) :
    ∃ r ∈ rows.head?, r.interweaved = 0 := by
  have hordered := MemoryRow.Ordered.of_accepts hrows hshort
  obtain ⟨initial, hinitial, terminals, hshared⟩ := hargument .origin
  obtain ⟨r, hmem, hzero⟩ := hshared.exists_share_eq_zero hcoded hinitial
    (Trace.product_origin_eq_zero ht hcoded hactive)
  obtain ⟨i, hr⟩ := List.mem_iff_getElem?.mp hmem
  cases i with
  | zero =>
    rw [(hordered.starts r hr).share_origin, Cubic.lift_eq_zero_iff] at hzero
    exact ⟨r, List.head?_eq_getElem?.trans hr, hzero⟩
  | succ i => exact absurd hzero (hordered.share_origin_ne_zero hr)

theorem comeback_interweaved_head :
    ∃ r ∈ (comebackMemory 0).head?, r.interweaved = 0 := by
  have hcoded := (comeback_runsThenIdles 0).coded
  refine interweaved_head_eq_zero (comeback_accepts 0) hcoded ?_ (comebackMemory_accepts 0)
    (by decide) ?_
  · intro r hr
    exact Option.some.inj hr ▸ Instruction.right.code_cast_ne_zero
  · intro ch
    exact ⟨1, one_ne_zero, _, SharedProduct.of_accesses_eq (comeback_accepts 0) hcoded
      (comebackMemory_accepts 0) (by decide) (comeback_accesses 0) ch ⟨1, 1⟩⟩

end Trace

end TapeAir
