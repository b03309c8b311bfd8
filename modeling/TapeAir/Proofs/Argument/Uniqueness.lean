import TapeAir.Proofs.Argument.Column
import TapeAir.Proofs.Constraint.Vanishing
/-! # Argument columns are unique

Put any elements of the extension behind the rows of a matrix. On every pair of rows the constraint
of an argument vanishes exactly when these elements are the column that an extension puts there,
starting from the first of them. In the last row of that column the terminal constraint accepts the
terminal that the extension stores, and no other value.
-/
namespace TapeAir

def withColumns {k : Kind} {ρ τ : Type} (full : ρ → τ → k.FullRow) (rows : List (ρ × τ)) :
    List ExtendedRow :=
  rows.map fun a => (full a.1 a.2).cells

theorem map_fst_ne_nil {ρ τ : Type} {rows : List (ρ × τ)} {first : ρ × τ}
    (hfirst : rows.head? = some first) : rows.map Prod.fst ≠ [] :=
  List.ne_nil_of_mem (List.mem_map_of_mem (List.mem_of_mem_head? hfirst))

section Display
variable {α ρ σ τ : Type} (row : α → ρ) (shown : α → τ) (view : σ → ρ → τ) (after : ρ → τ → σ)

/-- What is shown beside a row is the view of it from the state before it. The first state is given,
and each other one is known from the row above and what that shows. -/
structure Displays (s : σ) (rows : List α) : Prop where
  first : ∀ a ∈ rows.head?, shown a = view s (row a)
  step : rows.IsChain fun a b => shown b = view (after (row a) (shown a)) (row b)

variable {row shown view after}

theorem displays_cons {s : σ} {a : α} {rows : List α} :
    Displays row shown view after s (a :: rows) ↔
      shown a = view s (row a) ∧ Displays row shown view after (after (row a) (shown a)) rows := by
  constructor
  · rintro ⟨hfirst, hstep⟩
    obtain ⟨hsecond, hrest⟩ := List.isChain_cons.mp hstep
    exact ⟨hfirst a rfl, hsecond, hrest⟩
  · rintro ⟨hfirst, hsecond, hrest⟩
    refine ⟨fun b hb => ?_, List.isChain_cons.mpr ⟨hsecond, hrest⟩⟩
    obtain rfl := Option.some.inj hb
    exact hfirst

/-- Carrying the state through the rows puts beside them what stands there, exactly when they
display it. -/
theorem carried_eq_map_iff {cells : ρ → τ → ExtendedRow}
    (hcells : ∀ r, Function.Injective (cells r)) (s : σ) (rows : List α) :
    Row.carried (fun s r => cells r (view s r)) (fun s r => after r (view s r)) s (rows.map row) =
        rows.map (fun a => cells (row a) (shown a)) ↔
      Displays row shown view after s rows := by
  induction rows generalizing s with
  | nil => exact iff_of_true rfl ⟨nofun, .nil⟩
  | cons a rows ih =>
    rw [displays_cons, List.map_cons, List.map_cons, Row.carried, List.cons.injEq,
      (hcells (row a)).eq_iff, eq_comm]
    exact and_congr_right fun hfirst => hfirst ▸ ih _

/-- What is shown at a place is the view from the state behind the rows above it. -/
theorem displays_iff_foldl (s : σ) (rows : List α) :
    Displays row shown view after s rows ↔ ∀ (i : ℕ) (a : α), rows[i]? = some a → shown a =
      view (((rows.take i).map row).foldl (fun s r => after r (view s r)) s) (row a) := by
  induction rows generalizing s with
  | nil => exact iff_of_true ⟨nofun, .nil⟩ nofun
  | cons a rows ih =>
    rw [displays_cons, ih]
    constructor
    · rintro ⟨hfirst, hrest⟩ i b hb
      cases i with
      | zero =>
        obtain rfl := Option.some.inj hb
        exact hfirst
      | succ i =>
        rw [List.take_succ_cons, List.map_cons, List.foldl_cons, ← hfirst]
        exact hrest i b hb
    · intro h
      have hfirst : shown a = view s (row a) := h 0 a rfl
      refine ⟨hfirst, fun i b hb => ?_⟩
      rw [hfirst]
      exact h (i + 1) b hb

/-- If at each pair of rows a constraint says that the second shows what it must, then its vanishing
leaves only the first row open. -/
theorem vanishesOnPairs_iff_displays {n : ℕ} {cs : List (Poly Cubic n)} {place : ℕ}
    {cells : α → ExtendedRow} {s : σ} {rows : List α}
    (hfirst : ∀ a ∈ rows.head?, shown a = view s (row a))
    (hpairs : rows.IsChain fun a b =>
      (VanishesAt cs place (cells a ++ cells b) ↔
        shown b = view (after (row a) (shown a)) (row b))) :
    VanishesOnPairs cs place (rows.map cells) ↔ Displays row shown view after s rows := by
  have hstep : VanishesOnPairs cs place (rows.map cells) ↔
      rows.IsChain fun a b => shown b = view (after (row a) (shown a)) (row b) := by
    rw [VanishesOnPairs, List.isChain_map]
    rw [List.isChain_iff_getElem] at hpairs ⊢
    rw [List.isChain_iff_getElem]
    exact forall₂_congr hpairs
  rw [hstep]
  constructor
  · intro h
    exact ⟨hfirst, h⟩
  · intro h
    exact h.step

end Display

/-- If a constraint accepts at each row what the state behind it reaches, it accepts at the last row
what the state behind all rows reaches. -/
theorem vanishesOnLast_carried {σ ρ : Type} {extended : σ → ρ → ExtendedRow} {next : σ → ρ → σ}
    {n : ℕ} {cs : List (Poly Cubic n)} {place : ℕ} {terminal : Cubic} {rows : List ρ}
    (hne : rows ≠ []) (reached : σ → Cubic)
    (h : ∀ s, ∀ r ∈ rows, VanishesAt cs place (extended s r) ↔ terminal = reached (next s r))
    (s : σ) :
    VanishesOnLast cs place (Row.carried extended next s rows) ↔
      terminal = reached (rows.foldl next s) := by
  obtain ⟨init, r, rfl⟩ := (List.eq_nil_or_concat' rows).resolve_left hne
  have hlast := h (init.foldl next s) r (List.mem_append_right init List.mem_cons_self)
  rw [List.foldl_append, List.foldl_cons, List.foldl_nil, ← hlast, VanishesOnLast,
    Row.carried_concat, List.getLast?_concat]
  simp only [Option.mem_some_iff, exists_eq_left']

theorem Permutations.eq_mk_iff {p : Permutations} {x y : Cubic} :
    p = ⟨x, y⟩ ↔ p.instruction = x ∧ p.memory = y := by
  cases p
  simp only [Permutations.mk.injEq]

namespace Register

theorem full_injective (r : Register Goldilocks) :
    Function.Injective fun p => (r.full p).cells := by
  intro p q h
  have hcolumns := List.append_cancel_left h
  simp only [full, List.cons.injEq, and_true] at hcolumns
  exact Permutations.eq_mk_iff.mpr hcolumns

section Slots
variable {r : Register Goldilocks}
  (hcoded : r.currentInstruction = 0 ∨ ∃ i : Instruction, r.currentInstruction = i.code)
  (ch : Challenges) (p : Permutations)
include hcoded

theorem vanishesAt_transition_instruction (s : Register Goldilocks) (next : Permutations) :
    VanishesAt (Kind.processor.transition ch) 6 ((r.full p).cells ++ (s.full next).cells) ↔
      next.instruction =
        Extension.productNext ch.instructionWeights Register.lookup p.instruction r := by
  rw [Kind.FullRow.vanishesAt_transition, ← instructionProduct_iff hcoded]
  exact Option.some_inj

theorem vanishesAt_transition_memory (s : Register Goldilocks) (next : Permutations) :
    VanishesAt (Kind.processor.transition ch) 7 ((r.full p).cells ++ (s.full next).cells) ↔
      next.memory = Extension.productNext ch.memoryWeights Register.access p.memory r := by
  rw [Kind.FullRow.vanishesAt_transition, ← memoryProduct_iff hcoded]
  exact Option.some_inj

theorem vanishesAt_terminal_instruction (padding : ℕ) (terminals : Permutations) :
    VanishesAt (Kind.processor.terminal ch padding terminals) 0 (r.full p).cells ↔
      terminals.instruction = (Extension.processorNext ch p r).instruction := by
  rw [Kind.FullRow.vanishesAt_terminal, Extension.processorNext_eq,
    ← instructionProduct_iff hcoded]
  exact Option.some_inj

theorem vanishesAt_terminal_memory (padding : ℕ) (terminals : Permutations) :
    VanishesAt (Kind.processor.terminal ch padding terminals) 1 (r.full p).cells ↔
      terminals.memory = (Extension.processorNext ch p r).memory := by
  rw [Kind.FullRow.vanishesAt_terminal, Extension.processorNext_eq, ← memoryProduct_iff hcoded]
  exact Option.some_inj

end Slots

/-- A constraint that lets one product take in the factors of the rows decides a column: each row
shows the factors of the rows with an instruction above it. -/
theorem vanishesOnPairs_iff_product {n : ℕ} {cs : List (Poly Cubic n)} {place : ℕ}
    {slot : Permutations → Cubic} {w : Weights Cubic} {entry : Register Goldilocks → Triple}
    {rows : List (Register Goldilocks × Permutations)} {first : Register Goldilocks × Permutations}
    (hfirst : rows.head? = some first)
    (hpair : ∀ a ∈ rows, ∀ b : Register Goldilocks × Permutations,
      VanishesAt cs place ((a.1.full a.2).cells ++ (b.1.full b.2).cells) ↔
        slot b.2 = Extension.productNext w entry (slot a.2) a.1) :
    VanishesOnPairs cs place (withColumns Register.full rows) ↔
      ∀ (i : ℕ) (a : Register Goldilocks × Permutations), rows[i]? = some a →
        slot a.2 = slot first.2 * w.product
          ((((rows.take i).map Prod.fst).filter (·.currentInstruction ≠ 0)).map entry :
            List Triple) := by
  have hhead : ∀ a ∈ rows.head?, slot a.2 = slot first.2 := by
    intro a ha
    rw [Option.mem_unique hfirst ha]
  have hdisplays : VanishesOnPairs cs place (withColumns Register.full rows) ↔
      Displays Prod.fst (fun a => slot a.2) (fun x _ => x)
        (fun r x => Extension.productNext w entry x r) (slot first.2) rows :=
    vanishesOnPairs_iff_displays hhead
      (List.isChain_iff_getElem.mpr fun _ _ => hpair _ (List.getElem_mem _) _)
  rw [hdisplays, displays_iff_foldl]
  simp only [Extension.foldl_productNext]

end Register

namespace MemoryRow

theorem full_injective (r : MemoryRow Goldilocks) :
    Function.Injective fun x => (r.full x).cells :=
  fun _ _ h => List.head_eq_of_cons_eq (List.append_cancel_left h)

theorem vanishesAt_transition {r : MemoryRow Goldilocks}
    (hflag : r.interweaved = 0 ∨ r.interweaved = 1) (s : MemoryRow Goldilocks) (ch : Challenges)
    (x next : Cubic) :
    VanishesAt (Kind.memory.transition ch) 6 ((r.full x).cells ++ (s.full next).cells) ↔
      next = Extension.memoryNext ch x r := by
  rw [Kind.FullRow.vanishesAt_transition, ← mul_share hflag, ← carries_eq_zero_iff]
  exact Option.some_inj

theorem vanishesAt_terminal {r : MemoryRow Goldilocks}
    (hflag : r.interweaved = 0 ∨ r.interweaved = 1) (ch : Challenges) (padding : ℕ)
    (terminals : Permutations) (x : Cubic) :
    VanishesAt (Kind.memory.terminal ch padding terminals) 0 (r.full x).cells ↔
      terminals.memory = Extension.memoryNext ch x r := by
  rw [Kind.FullRow.vanishesAt_terminal, ← mul_share hflag, ← carries_eq_zero_iff,
    ← ends_eq_carries]
  exact Option.some_inj

end MemoryRow

namespace InstructionRow

theorem full_injective (r : InstructionRow Goldilocks) :
    Function.Injective fun x => (r.full x).cells :=
  fun _ _ h => List.head_eq_of_cons_eq (List.append_cancel_left h)

theorem vanishesAt_transition {r s : InstructionRow Goldilocks}
    (haddress : s.address = r.address ∨ s.address = r.address + 1) (ch : Challenges)
    (x next : Cubic) :
    VanishesAt (Kind.instruction.transition ch) 4 ((r.full x).cells ++ (s.full next).cells) ↔
      next = (Extension.instructionNext ch (some r.address, x) s).2 := by
  rw [Kind.FullRow.vanishesAt_transition, ← carries_eq_zero_iff haddress]
  exact Option.some_inj

theorem vanishesAt_terminal (r : InstructionRow Goldilocks) (ch : Challenges) (padding : ℕ)
    (terminals : Permutations) (x : Cubic) :
    VanishesAt (Kind.instruction.terminal ch padding terminals) 0 (r.full x).cells ↔
      terminals.instruction = x := by
  rw [Kind.FullRow.vanishesAt_terminal]
  exact Option.some_inj.trans (sub_eq_zero.trans eq_comm)

end InstructionRow

namespace Table

def unitChallenges : Challenges :=
  ⟨1, 1, 1, 1, 1, 1, .lift (100 : ℕ), .lift (10 : ℕ), 0, 0, 0⟩

/-- Where all flags of a memory matrix are zero or one, only the extended matrix satisfies the
constraint of the memory argument: each row shows the factors of the accesses above it. Its last row
accepts the stored terminal alone. -/
theorem memory_column_unique {m : Table .memory} {rows : List (MemoryRow Goldilocks × Cubic)}
    {first : MemoryRow Goldilocks × Cubic} (hfirst : rows.head? = some first)
    (hflags : ∀ a ∈ rows, a.1.interweaved = 0 ∨ a.1.interweaved = 1)
    (h : m.matrix = (rows.map Prod.fst).map MemoryRow.toList) (ch : Challenges)
    (initial : Permutations) (hinitial : initial.memory = first.2) :
    ∃ m', m.extend ch initial = .ok m' ∧
      (VanishesOnPairs (Kind.memory.transition ch) 6 (withColumns MemoryRow.full rows) ↔
        m'.extendedMatrix = withColumns MemoryRow.full rows) ∧
      (m'.extendedMatrix = withColumns MemoryRow.full rows ↔
        ∀ (i : ℕ) (a : MemoryRow Goldilocks × Cubic), rows[i]? = some a →
          a.2 = first.2 * ch.memoryWeights.product
            (MemoryRow.accesses ((rows.take i).map Prod.fst))) ∧
      ∀ (padding : ℕ) (terminals : Permutations),
        VanishesOnLast (Kind.memory.terminal ch padding terminals) 0 m'.extendedMatrix ↔
          terminals.memory = m'.summary := by
  obtain ⟨m', hm', hextended, hsummary⟩ := extend_memory ch initial h
  have hhead : ∀ a ∈ rows.head?, a.2 = initial.memory := by
    intro a ha
    rw [hinitial, Option.mem_unique hfirst ha]
  have hmatrix : (m'.extendedMatrix = withColumns MemoryRow.full rows) ↔
      Displays Prod.fst Prod.snd (fun x _ => x) (fun r x => Extension.memoryNext ch x r)
        initial.memory rows := by
    rw [hextended]
    exact carried_eq_map_iff MemoryRow.full_injective initial.memory rows
  refine ⟨m', hm', ?_, ?_, ?_⟩
  · rw [hmatrix]
    refine vanishesOnPairs_iff_displays hhead (List.isChain_iff_getElem.mpr ?_)
    intro i hi
    exact MemoryRow.vanishesAt_transition (hflags _ (List.getElem_mem _)) _ ch _ _
  · rw [hmatrix, displays_iff_foldl]
    simp only [Extension.foldl_memoryNext, hinitial]
  · intro padding terminals
    rw [hextended, hsummary, ← Extension.foldl_memoryNext]
    refine vanishesOnLast_carried (map_fst_ne_nil hfirst) id ?_ initial.memory
    intro x r hr
    obtain ⟨a, ha, rfl⟩ := List.mem_map.mp hr
    exact MemoryRow.vanishesAt_terminal (hflags a ha) ch padding terminals x

def woven : List (MemoryRow Goldilocks × Cubic) :=
  [(⟨0, 0, (5 : ℕ), 0⟩, .lift (3 : ℕ)), (⟨1, 0, (5 : ℕ), 1⟩, .lift (15 : ℕ)),
    (⟨(2 : ℕ), 0, (6 : ℕ), 0⟩, .lift (15 : ℕ)), (⟨(3 : ℕ), 0, (6 : ℕ), 1⟩, .lift (30 : ℕ))]

def wovenTable : Table .memory := ofRows .memory ((woven.map Prod.fst).map MemoryRow.toList)

theorem woven_column :
    ∃ m, wovenTable.extend unitChallenges ⟨0, .lift (3 : ℕ)⟩ = .ok m ∧
      m.extendedMatrix = withColumns MemoryRow.full woven ∧
      VanishesOnPairs (Kind.memory.transition unitChallenges) 6 m.extendedMatrix ∧
      ∀ (padding : ℕ) (terminals : Permutations),
        VanishesOnLast (Kind.memory.terminal unitChallenges padding terminals) 0
          m.extendedMatrix ↔ terminals.memory = .lift (30 : ℕ) := by
  have hextend : wovenTable.extend unitChallenges ⟨0, .lift (3 : ℕ)⟩ =
      .ok { wovenTable with
        extendedMatrix := withColumns MemoryRow.full woven
        summary := (.lift (30 : ℕ) : Cubic) } := rfl
  obtain ⟨m, hm, hpairs, -, hlast⟩ := memory_column_unique (m := wovenTable)
    (show woven.head? = some _ from rfl) (by decide) rfl unitChallenges ⟨0, .lift (3 : ℕ)⟩ rfl
  obtain rfl := Except.ok.inj (hm.symm.trans hextend)
  exact ⟨_, hextend, rfl, hpairs.mpr rfl, hlast⟩

/-- Where every row of a processor matrix holds an instruction or none, each of the two constraints
decides its own column, and only the extended matrix satisfies both. Whether its last row holds an
instruction or not, it accepts the stored terminals alone. -/
theorem processor_columns_unique {p : Table .processor}
    {rows : List (Register Goldilocks × Permutations)} {first : Register Goldilocks × Permutations}
    (hfirst : rows.head? = some first) (hcoded : Trace.Coded (rows.map Prod.fst))
    (h : p.matrix = (rows.map Prod.fst).map Register.toList) (ch : Challenges) :
    ∃ p', p.extend ch first.2 = .ok p' ∧
      (VanishesOnPairs (Kind.processor.transition ch) 6 (withColumns Register.full rows) ↔
        ∀ (i : ℕ) (a : Register Goldilocks × Permutations), rows[i]? = some a →
          a.2.instruction = first.2.instruction * ch.instructionWeights.product
            (Trace.lookups ((rows.take i).map Prod.fst))) ∧
      (VanishesOnPairs (Kind.processor.transition ch) 7 (withColumns Register.full rows) ↔
        ∀ (i : ℕ) (a : Register Goldilocks × Permutations), rows[i]? = some a →
          a.2.memory = first.2.memory * ch.memoryWeights.product
            (Trace.accesses ((rows.take i).map Prod.fst))) ∧
      (VanishesOnPairs (Kind.processor.transition ch) 6 (withColumns Register.full rows) ∧
          VanishesOnPairs (Kind.processor.transition ch) 7 (withColumns Register.full rows) ↔
        p'.extendedMatrix = withColumns Register.full rows) ∧
      ∀ (padding : ℕ) (terminals : Permutations),
        (VanishesOnLast (Kind.processor.terminal ch padding terminals) 0 p'.extendedMatrix ↔
          terminals.instruction = Permutations.instruction p'.summary) ∧
        (VanishesOnLast (Kind.processor.terminal ch padding terminals) 1 p'.extendedMatrix ↔
          terminals.memory = Permutations.memory p'.summary) := by
  obtain ⟨p', hp', hextended, hsummary⟩ := extend_processor ch first.2 h
  have hcodedAt (a : Register Goldilocks × Permutations) (ha : a ∈ rows) :=
    hcoded a.1 (List.mem_map_of_mem ha)
  have hinstruction : VanishesOnPairs (Kind.processor.transition ch) 6
      (withColumns Register.full rows) ↔
        ∀ (i : ℕ) (a : Register Goldilocks × Permutations), rows[i]? = some a →
          a.2.instruction = first.2.instruction * ch.instructionWeights.product
            (Trace.lookups ((rows.take i).map Prod.fst)) :=
    Register.vanishesOnPairs_iff_product hfirst fun a ha b =>
      Register.vanishesAt_transition_instruction (hcodedAt a ha) ch a.2 b.1 b.2
  have hmemory : VanishesOnPairs (Kind.processor.transition ch) 7
      (withColumns Register.full rows) ↔
        ∀ (i : ℕ) (a : Register Goldilocks × Permutations), rows[i]? = some a →
          a.2.memory = first.2.memory * ch.memoryWeights.product
            (Trace.accesses ((rows.take i).map Prod.fst)) :=
    Register.vanishesOnPairs_iff_product hfirst fun a ha b =>
      Register.vanishesAt_transition_memory (hcodedAt a ha) ch a.2 b.1 b.2
  have hmatrix : (p'.extendedMatrix = withColumns Register.full rows) ↔
      Displays Prod.fst Prod.snd (fun q _ => q) (fun r q => Extension.processorNext ch q r)
        first.2 rows := by
    rw [hextended]
    exact carried_eq_map_iff Register.full_injective first.2 rows
  refine ⟨p', hp', hinstruction, hmemory, ?_, ?_⟩
  · rw [hmatrix, hinstruction, hmemory, displays_iff_foldl]
    simp only [Extension.foldl_processorNext, Permutations.eq_mk_iff, imp_and, forall_and]
  · intro padding terminals
    rw [hextended, hsummary, ← Extension.foldl_processorNext]
    constructor
    · refine vanishesOnLast_carried (map_fst_ne_nil hfirst) Permutations.instruction ?_ first.2
      intro q r hr
      exact Register.vanishesAt_terminal_instruction (hcoded r hr) ch q padding terminals
    · refine vanishesOnLast_carried (map_fst_ne_nil hfirst) Permutations.memory ?_ first.2
      intro q r hr
      exact Register.vanishesAt_terminal_memory (hcoded r hr) ch q padding terminals

def settling : List (Register Goldilocks × Permutations) :=
  [(⟨0, 0, Instruction.increment.code, Instruction.write.code, 0, 0, 0⟩,
      ⟨.lift (2 : ℕ), .lift (3 : ℕ)⟩),
    (⟨1, 1, Instruction.write.code, 0, 0, 1, 1⟩, ⟨.lift (22 : ℕ), .lift (30 : ℕ)⟩),
    (⟨(2 : ℕ), (2 : ℕ), 0, 0, 0, 1, 1⟩, ⟨.lift (1166 : ℕ), .lift (240 : ℕ)⟩),
    (⟨(3 : ℕ), (2 : ℕ), 0, 0, 0, 1, 1⟩, ⟨.lift (1166 : ℕ), .lift (240 : ℕ)⟩)]

def settlingTable : Table .processor :=
  ofRows .processor ((settling.map Prod.fst).map Register.toList)

theorem settling_coded : Trace.Coded (settling.map Prod.fst) := by
  simp only [Trace.Coded, settling, List.map_cons, List.forall_mem_cons]
  exact ⟨.inr ⟨_, rfl⟩, .inr ⟨_, rfl⟩, .inl trivial, .inl trivial, by simp⟩

theorem settling_columns :
    ∃ p, settlingTable.extend unitChallenges ⟨.lift (2 : ℕ), .lift (3 : ℕ)⟩ = .ok p ∧
      p.extendedMatrix = withColumns Register.full settling ∧
      VanishesOnPairs (Kind.processor.transition unitChallenges) 6 p.extendedMatrix ∧
      VanishesOnPairs (Kind.processor.transition unitChallenges) 7 p.extendedMatrix ∧
      ∀ (padding : ℕ) (terminals : Permutations),
        (VanishesOnLast (Kind.processor.terminal unitChallenges padding terminals) 0
          p.extendedMatrix ↔ terminals.instruction = .lift (1166 : ℕ)) ∧
        (VanishesOnLast (Kind.processor.terminal unitChallenges padding terminals) 1
          p.extendedMatrix ↔ terminals.memory = .lift (240 : ℕ)) := by
  have hextend : settlingTable.extend unitChallenges ⟨.lift (2 : ℕ), .lift (3 : ℕ)⟩ =
      .ok { settlingTable with
        extendedMatrix := withColumns Register.full settling
        summary := (⟨.lift (1166 : ℕ), .lift (240 : ℕ)⟩ : Permutations) } := rfl
  obtain ⟨p, hp, -, -, hboth, hlast⟩ := processor_columns_unique (p := settlingTable)
    (show settling.head? = some _ from rfl) settling_coded rfl unitChallenges
  obtain rfl := Except.ok.inj (hp.symm.trans hextend)
  obtain ⟨hinstruction, hmemory⟩ := hboth.mpr rfl
  exact ⟨_, hextend, rfl, hinstruction, hmemory, hlast⟩

/-- Where the addresses of an instruction matrix stay or count up, only the extended matrix
satisfies the constraint of the instruction argument: each row shows the factors of the rows up to
itself that repeat an address. Its last row accepts the stored terminal alone. -/
theorem instruction_column_unique {t : Table .instruction}
    {rows : List (InstructionRow Goldilocks × Cubic)} {first : InstructionRow Goldilocks × Cubic}
    (hfirst : rows.head? = some first)
    (haddress : (rows.map Prod.fst).IsChain fun r s =>
      s.address = r.address ∨ s.address = r.address + 1)
    (h : t.matrix = (rows.map Prod.fst).map InstructionRow.toList) (ch : Challenges)
    (initial : Permutations) (hinitial : initial.instruction = first.2) :
    ∃ t', t.extend ch initial = .ok t' ∧
      (VanishesOnPairs (Kind.instruction.transition ch) 4 (withColumns InstructionRow.full rows) ↔
        t'.extendedMatrix = withColumns InstructionRow.full rows) ∧
      (t'.extendedMatrix = withColumns InstructionRow.full rows ↔
        ∀ (i : ℕ) (a : InstructionRow Goldilocks × Cubic), rows[i]? = some a →
          a.2 = first.2 * ch.instructionWeights.product
            (InstructionRow.lookups ((rows.take (i + 1)).map Prod.fst))) ∧
      ∀ (padding : ℕ) (terminals : Permutations),
        VanishesOnLast (Kind.instruction.terminal ch padding terminals) 0 t'.extendedMatrix ↔
          terminals.instruction = t'.summary := by
  obtain ⟨t', ht', hextended, hsummary⟩ := extend_instruction ch initial h
  have hhead : ∀ a ∈ rows.head?,
      a.2 = (Extension.instructionNext ch (none, initial.instruction) a.1).2 := by
    intro a ha
    have hunseen : (Extension.instructionNext ch (none, initial.instruction) a.1).2 =
        initial.instruction := rfl
    rw [hunseen, hinitial, Option.mem_unique hfirst ha]
  have hmatrix : (t'.extendedMatrix = withColumns InstructionRow.full rows) ↔
      Displays Prod.fst Prod.snd (fun s r => (Extension.instructionNext ch s r).2)
        (fun r x => (some r.address, x)) (none, initial.instruction) rows := by
    rw [hextended]
    exact carried_eq_map_iff InstructionRow.full_injective (none, initial.instruction) rows
  refine ⟨t', ht', ?_, ?_, ?_⟩
  · rw [hmatrix]
    refine vanishesOnPairs_iff_displays hhead ?_
    exact ((List.isChain_map _).mp haddress).imp fun a b hab =>
      InstructionRow.vanishesAt_transition hab ch a.2 b.2
  · rw [hmatrix, displays_iff_foldl]
    refine forall₂_congr fun i a => imp_congr_right fun ha => ?_
    rw [List.take_add_one, ha, ← hinitial, ← Extension.foldl_instructionNext_none,
      Option.toList_some, List.map_append, List.foldl_append]
    rfl
  · intro padding terminals
    rw [hextended, hsummary, ← Extension.foldl_instructionNext_none]
    refine vanishesOnLast_carried (map_fst_ne_nil hfirst) Prod.snd ?_ (none, initial.instruction)
    intro s r _
    exact r.vanishesAt_terminal ch padding terminals _

def repeating : List (InstructionRow Goldilocks × Cubic) :=
  [(⟨0, Instruction.increment.code, Instruction.write.code⟩, .lift (2 : ℕ)),
    (⟨0, Instruction.increment.code, Instruction.write.code⟩, .lift (22 : ℕ)),
    (⟨1, Instruction.write.code, 0⟩, .lift (22 : ℕ)),
    (⟨1, Instruction.write.code, 0⟩, .lift (1166 : ℕ))]

def repeatingTable : Table .instruction :=
  ofRows .instruction ((repeating.map Prod.fst).map InstructionRow.toList)

theorem repeating_column :
    ∃ t, repeatingTable.extend unitChallenges ⟨.lift (2 : ℕ), 0⟩ = .ok t ∧
      t.extendedMatrix = withColumns InstructionRow.full repeating ∧
      VanishesOnPairs (Kind.instruction.transition unitChallenges) 4 t.extendedMatrix ∧
      ∀ (padding : ℕ) (terminals : Permutations),
        VanishesOnLast (Kind.instruction.terminal unitChallenges padding terminals) 0
          t.extendedMatrix ↔ terminals.instruction = .lift (1166 : ℕ) := by
  have hextend : repeatingTable.extend unitChallenges ⟨.lift (2 : ℕ), 0⟩ =
      .ok { repeatingTable with
        extendedMatrix := withColumns InstructionRow.full repeating
        summary := (.lift (1166 : ℕ) : Cubic) } := rfl
  obtain ⟨t, ht, hpairs, -, hlast⟩ := instruction_column_unique (t := repeatingTable)
    (show repeating.head? = some _ from rfl) (by decide) rfl unitChallenges ⟨.lift (2 : ℕ), 0⟩ rfl
  obtain rfl := Except.ok.inj (ht.symm.trans hextend)
  exact ⟨_, hextend, rfl, hpairs.mpr rfl, hlast⟩

end Table

end TapeAir
