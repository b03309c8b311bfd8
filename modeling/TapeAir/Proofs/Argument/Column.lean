import TapeAir.Proofs.Argument.Terminal
import TapeAir.Proofs.Constraint.Extended
import TapeAir.Proofs.Machine.Lawful
/-! # Argument columns

The constraints of the extension leave no choice in the columns of running products: behind each row
the product is that before the row, with the row's factor if the argument takes the row in, and
behind the last row it is the terminal. So the terminal is the first product times the factors of
the matrix. In the instruction table a row shows the product with its own factor, so there the last
row shows the terminal.
-/
namespace TapeAir

section Threads
variable {ρ σ : Type} {next : σ → ρ → σ}

/-- Rows with the states before them: each state comes from the row before it, and `last` from the
last row. -/
structure Threads (next : σ → ρ → σ) (rows : List (ρ × σ)) (last : σ) : Prop where
  step : rows.IsChain fun a b => b.2 = next a.2 a.1
  ends : ∃ a ∈ rows.getLast?, last = next a.2 a.1

theorem Threads.last_eq {rows : List (ρ × σ)} {first last : σ} (h : Threads next rows last)
    (hfirst : ∀ a ∈ rows.head?, a.2 = first) :
    last = (rows.map Prod.fst).foldl next first := by
  obtain ⟨hstep, hends⟩ := h
  induction rows generalizing first with
  | nil => simp at hends
  | cons a rows ih =>
    obtain rfl := hfirst a rfl
    obtain ⟨hsecond, hrest⟩ := List.isChain_cons.mp hstep
    cases rows with
    | nil => simpa using hends
    | cons b rows => exact ih hsecond hrest hends

theorem exists_threads (next : σ → ρ → σ) {rows : List ρ} (hne : rows ≠ []) (first : σ) :
    ∃ states : List (ρ × σ), states.map Prod.fst = rows ∧ (∀ a ∈ states.head?, a.2 = first) ∧
      Threads next states (rows.foldl next first) := by
  induction rows generalizing first with
  | nil => exact absurd rfl hne
  | cons r rows ih =>
    cases rows with
    | nil => exact ⟨[(r, first)], rfl, by simp, .singleton _, (r, first), rfl, rfl⟩
    | cons s rows =>
      obtain ⟨states, hrows, hfirst, hthreads⟩ := ih (List.cons_ne_nil s rows) (next first r)
      refine ⟨(r, first) :: states, congrArg (r :: ·) hrows, by simp, ?_, ?_⟩
      · exact List.isChain_cons.mpr ⟨hfirst, hthreads.step⟩
      · obtain ⟨a, ha, hlast⟩ := hthreads.ends
        refine ⟨a, ?_, hlast⟩
        rw [Option.mem_def, List.getLast?_cons, Option.mem_def.mp ha]
        rfl

end Threads

/-- The argument columns of an extended matrix satisfy the transition constraints, and behind the
last row they reach the terminals. -/
structure Kind.Carries (k : Kind) (ch : Challenges) (terminals : k.Terminals)
    (rows : List k.FullRow) : Prop where
  transition : pairViolations (k.transition ch) (rows.map (·.cells)) = .ok []
  terminal : ∃ r ∈ rows.getLast?, rowViolations (k.terminal ch 0 terminals) r.cells = .ok []

/-- If the formulas at a pair of rows say that the next state comes from the row before it, and those
at the last row that the terminal does, the accepted columns are the states threaded through the
rows. -/
theorem Kind.carries_iff {k : Kind} {ρ σ : Type} {full : ρ → σ → k.FullRow} {base : ρ → ρ → Prop}
    {next : σ → ρ → σ} {ch : Challenges} {terminals : k.Terminals} {last : σ} {rows : List (ρ × σ)}
    (hpair : ∀ a ∈ rows, ∀ b : ρ × σ,
      ((∀ x ∈ k.transitionFormulas (column (full a.1 a.2).base) (column (full b.1 b.2).base),
          x = 0) ∧
        ∀ x ∈ argumentTransition id ch k (column ((full a.1 a.2).cells ++ (full b.1 b.2).cells))
          (column (full b.1 b.2).cells), x = 0) ↔ base a.1 b.1 ∧ b.2 = next a.2 a.1)
    (hlast : ∀ a ∈ rows, (∀ x ∈ argumentTerminal id ch 0 (column (full a.1 a.2).cells) k terminals,
      x = 0) ↔ last = next a.2 a.1) :
    k.Carries ch terminals (rows.map fun a => full a.1 a.2) ↔
      (rows.map Prod.fst).IsChain base ∧ Threads next rows last := by
  have hchain : pairViolations (k.transition ch) ((rows.map fun a => full a.1 a.2).map (·.cells)) =
      .ok [] ↔ (rows.map Prod.fst).IsChain base ∧ rows.IsChain fun a b => b.2 = next a.2 a.1 := by
    rw [FullRow.pairViolations_iff, List.isChain_map, List.isChain_map,
      List.IsChain.iff_of_mem_imp fun a b ha _ => hpair a ha b]
    simp only [List.isChain_iff_getElem, forall_and]
  have hends : (∃ r ∈ (rows.map fun a => full a.1 a.2).getLast?,
      rowViolations (k.terminal ch 0 terminals) r.cells = .ok []) ↔
      ∃ a ∈ rows.getLast?, last = next a.2 a.1 := by
    simp only [List.getLast?_map, Option.mem_def, Option.map_eq_some_iff, exists_exists_and_eq_and,
      FullRow.rowViolations_terminal_iff]
    exact exists_congr fun a =>
      and_congr_right fun ha => hlast a (List.mem_of_getLast? ha)
  refine ⟨fun h => ?_, fun h => ⟨hchain.mpr ⟨h.1, h.2.step⟩, hends.mpr h.2.ends⟩⟩
  obtain ⟨hbase, hstep⟩ := hchain.mp h.transition
  exact ⟨hbase, hstep, hends.mp h.terminal⟩

namespace Register

def full (r : Register Goldilocks) (p : Permutations) : Kind.processor.FullRow :=
  ⟨r.toList, [p.instruction, p.memory], layout.length_cells r, rfl⟩

theorem zerofier_lift_eq_zero_iff (x : Goldilocks) :
    Instruction.zerofier (Cubic.lift x) = 0 ↔ ∃ i : Instruction, x = i.code := by
  rw [Instruction.zerofier_eq_zero_iff]
  exact exists_congr fun i => Cubic.liftHom_injective.eq_iff (a := x) (b := i.code)

theorem carries_eq_zero_iff {r : Register Goldilocks}
    (hcoded : r.currentInstruction = 0 ∨ ∃ i : Instruction, r.currentInstruction = i.code)
    (factor product next : Cubic) :
    (r.map Cubic.lift).carries factor product next = 0 ↔
      next = if r.currentInstruction = 0 then product else product * factor := by
  have hzerofier := zerofier_lift_eq_zero_iff r.currentInstruction
  simp only [carries, Register.map]
  by_cases hidle : r.currentInstruction = 0
  · have hzero : Instruction.zerofier (Cubic.lift r.currentInstruction) ≠ 0 := by
      rw [ne_eq, hzerofier, hidle]
      rintro ⟨i, hi⟩
      exact i.code_cast_ne_zero hi.symm
    rw [(Cubic.lift_eq_zero_iff _).mpr hidle] at hzero ⊢
    rw [if_pos hidle, mul_zero, zero_add, mul_eq_zero, or_iff_left hzero, sub_eq_zero, eq_comm]
  · have hlift := (Cubic.lift_eq_zero_iff r.currentInstruction).not.mpr hidle
    rw [hzerofier.mpr (hcoded.resolve_left hidle), if_neg hidle, mul_zero, add_zero, mul_eq_zero,
      or_iff_left hlift, sub_eq_zero, eq_comm]

section Slots
variable {r : Register Goldilocks}
  (hcoded : r.currentInstruction = 0 ∨ ∃ i : Instruction, r.currentInstruction = i.code)
include hcoded

theorem instructionProduct_iff (w : Weights Cubic) (x next : Cubic) :
    (r.map Cubic.lift).carries ((r.map Cubic.lift).instructionFactor w) x next = 0 ↔
      next = Extension.productNext w Register.lookup x r := by
  rw [carries_eq_zero_iff hcoded, Extension.productNext, ← Weights.factor_eq]
  rfl

theorem memoryProduct_iff (w : Weights Cubic) (x next : Cubic) :
    (r.map Cubic.lift).carries ((r.map Cubic.lift).memoryFactor w) x next = 0 ↔
      next = Extension.productNext w Register.access x r := by
  rw [carries_eq_zero_iff hcoded, Extension.productNext, ← Weights.factor_eq]
  rfl

theorem productsAre_iff (ch : Challenges) (p q : Permutations) :
    (∀ x ∈ ProcessorRow.productsAre ch.instructionWeights ch.memoryWeights
      ⟨r.map Cubic.lift, p.instruction, p.memory⟩ q.instruction q.memory, x = 0) ↔
      q = Extension.processorNext ch p r := by
  simp only [ProcessorRow.productsAre, List.forall_mem_cons, List.not_mem_nil, false_implies,
    implies_true, and_true, instructionProduct_iff hcoded, memoryProduct_iff hcoded,
    Extension.processorNext_eq]
  exact ⟨fun h => congrArg₂ Permutations.mk h.1 h.2, fun h => h ▸ ⟨rfl, rfl⟩⟩

end Slots

theorem carries_iff {rows : List (Register Goldilocks × Permutations)}
    (hcoded : Trace.Coded (rows.map Prod.fst)) (ch : Challenges) (terminals : Permutations) :
    Kind.processor.Carries ch terminals (rows.map fun a => a.1.full a.2) ↔
      ((rows.map Prod.fst).IsChain fun r s => ∀ x ∈ r.transition s, x = 0) ∧
        Threads (Extension.processorNext ch) rows terminals := by
  have hproducts (a : Register Goldilocks × Permutations) (ha : a ∈ rows) :=
    productsAre_iff (hcoded _ (List.mem_map_of_mem ha)) ch a.2
  refine Kind.carries_iff ?_ ?_
  · intro a ha b
    exact and_congr_right' (hproducts a ha b.2)
  · intro a ha
    exact hproducts a ha terminals

end Register

namespace MemoryRow

def full (r : MemoryRow Goldilocks) (x : Cubic) : Kind.memory.FullRow :=
  ⟨r.toList, [x], layout.length_cells r, rfl⟩

/-- What the constraints let a row contribute. A flag that is neither zero nor one mixes the factor
of the row with one. -/
def share (w : Weights Cubic) (r : MemoryRow Goldilocks) : Cubic :=
  (w.point - w.compress r.access) * (1 - Cubic.lift r.interweaved) + Cubic.lift r.interweaved

theorem share_of_access {r : MemoryRow Goldilocks} (h : r.interweaved = 0) (w : Weights Cubic) :
    r.share w = w.point - w.compress r.access := by
  rw [share, h, Cubic.lift_interprets.zero, sub_zero, mul_one, add_zero]

theorem share_of_interweaved {r : MemoryRow Goldilocks} (h : r.interweaved = 1)
    (w : Weights Cubic) : r.share w = 1 := by
  rw [share, h, Cubic.lift_interprets.one, sub_self, mul_zero, zero_add]

theorem foldl_share (w : Weights Cubic) (x : Cubic) (rows : List (MemoryRow Goldilocks)) :
    rows.foldl (fun x r => x * r.share w) x = x * (rows.map (·.share w)).prod := by
  induction rows generalizing x with
  | nil => exact (mul_one x).symm
  | cons r rows ih => rw [List.foldl_cons, ih, List.map_cons, List.prod_cons, mul_assoc]

/-- Where all flags are zero or one, the shares are the factors of the accesses. -/
theorem prod_share {rows : List (MemoryRow Goldilocks)}
    (hflags : ∀ r ∈ rows, r.interweaved = 0 ∨ r.interweaved = 1) (w : Weights Cubic) :
    (rows.map (·.share w)).prod = w.product (accesses rows) := by
  induction rows with
  | nil => rfl
  | cons r rows ih =>
    obtain ⟨hr, hrest⟩ := List.forall_mem_cons.mp hflags
    rw [List.map_cons, List.prod_cons, ih hrest, accesses_cons]
    rcases hr with hopen | hfilled
    · rw [if_pos hopen, share_of_access hopen, Weights.product_cons]
    · rw [if_neg (hfilled ▸ one_ne_zero), share_of_interweaved hfilled, one_mul]

theorem carries_eq_zero_iff (w : Weights Cubic) (r : MemoryRow Goldilocks) (x next : Cubic) :
    carries w ⟨.lift r.cycle, .lift r.memoryPointer, .lift r.memoryValue, .lift r.interweaved⟩
      x next = 0 ↔ next = x * r.share w := by
  rw [carries, factor, share, ← Weights.factor_eq, sub_eq_zero, eq_comm]
  rfl

/-- The terminal stands to the last row as the product of a next row would. -/
theorem ends_eq_carries (w : Weights Cubic) (r : MemoryRow Cubic) (x terminal : Cubic) :
    r.ends w x terminal = r.carries w x terminal := by
  rw [ends, carries]
  ring

/-- Where the flag is zero or one, the share is what an extension takes in. -/
theorem mul_share {r : MemoryRow Goldilocks} (h : r.interweaved = 0 ∨ r.interweaved = 1)
    (ch : Challenges) (x : Cubic) :
    x * r.share ch.memoryWeights = Extension.memoryNext ch x r := by
  rcases h with hopen | hfilled
  · rw [share_of_access hopen, Extension.memoryNext, if_pos hopen]
  · rw [share_of_interweaved hfilled, mul_one, Extension.memoryNext,
      if_neg (hfilled ▸ one_ne_zero)]

theorem carries_iff (rows : List (MemoryRow Goldilocks × Cubic)) (ch : Challenges)
    (terminals : Permutations) :
    Kind.memory.Carries ch terminals (rows.map fun a => a.1.full a.2) ↔
      ((rows.map Prod.fst).IsChain fun r s => ∀ x ∈ r.transition s, x = 0) ∧
        Threads (fun x r => x * r.share ch.memoryWeights) rows terminals.memory := by
  refine Kind.carries_iff ?_ ?_
  · intro a _ b
    exact and_congr_right' (List.forall_mem_singleton.trans
      (carries_eq_zero_iff ch.memoryWeights a.1 a.2 b.2))
  · intro a _
    refine List.forall_mem_singleton.trans ?_
    rw [← carries_eq_zero_iff, ← ends_eq_carries]
    rfl

end MemoryRow

namespace InstructionRow

def full (r : InstructionRow Goldilocks) (x : Cubic) : Kind.instruction.FullRow :=
  ⟨r.toList, [x], layout.length_cells r, rfl⟩

theorem carries_eq_zero_iff {r s : InstructionRow Goldilocks}
    (haddress : s.address = r.address ∨ s.address = r.address + 1) (ch : Challenges)
    (x next : Cubic) :
    carries ch.instructionWeights
        ⟨.lift r.address, .lift r.currentInstruction, .lift r.nextInstruction⟩
        ⟨.lift s.address, .lift s.currentInstruction, .lift s.nextInstruction⟩ x next = 0 ↔
      next = (Extension.instructionNext ch (some r.address, x) s).2 := by
  have hfactor : factor ch.instructionWeights
      ⟨.lift s.address, .lift s.currentInstruction, .lift s.nextInstruction⟩ =
        ch.instructionWeights.point - ch.instructionWeights.compress s.lookup :=
    Weights.factor_eq _ s.lookup
  rw [carries, hfactor, Extension.instructionNext]
  rcases haddress with hstays | hcounts
  · rw [if_pos (congrArg some hstays.symm), hstays, add_sub_cancel_left, mul_one, sub_self,
      mul_zero, add_zero, sub_eq_zero, eq_comm]
  · have hne : some r.address ≠ some s.address := by
      rw [hcounts]
      exact fun he => by simpa using (Option.some.inj he).symm
    rw [if_neg hne, hcounts, Cubic.lift_interprets.add, Cubic.lift_interprets.one, sub_self,
      mul_zero, zero_add, add_sub_cancel_left, mul_one, sub_eq_zero, eq_comm]

end InstructionRow

end TapeAir
