import TapeAir.Proofs.Constraint.Lookup
import TapeAir.Proofs.Lookup.Derivation
import TapeAir.Proofs.Machine.Record
/-! # The instruction table of a run

A run that ends executes cells of its program only, and shows each as the program has it. So all
rows of the derived matrix at an address are the same, one for the program and one for each
execution. Such a matrix keeps to the constraints, also through its padding, since behind the last
cell an empty one is announced.
-/
namespace TapeAir

def Trace.executions (t : Trace) (address : ℕ) : ℕ :=
  (List.dropLast t).countP (·.instructionPointer = (address : Goldilocks))

/-- The rows of the numbers below `n` in order, each one time more often than is counted. -/
def blocks {ρ : Type} (row : ℕ → ρ) (count : ℕ → ℕ) (n : ℕ) : List ρ :=
  (List.range n).flatMap fun i => List.replicate (count i + 1) (row i)

section Blocks
variable {ρ : Type} {R : ρ → ρ → Prop} (row : ℕ → ρ) (count : ℕ → ℕ)

theorem blocks_succ (n : ℕ) :
    blocks row count (n + 1) = blocks row count n ++ List.replicate (count n + 1) (row n) := by
  rw [blocks, List.range_succ, List.flatMap_append, List.flatMap_singleton, blocks]

theorem head?_blocks (n : ℕ) : (blocks row count (n + 1)).head? = some (row 0) := by
  rw [blocks, List.range_succ_eq_map, List.flatMap_cons, List.replicate_succ, List.cons_append,
    List.head?_cons]

theorem getLast?_blocks (n : ℕ) : (blocks row count (n + 1)).getLast? = some (row n) := by
  rw [blocks_succ, List.getLast?_append, List.getLast?_replicate, if_neg (Nat.succ_ne_zero _),
    Option.some_or]

theorem isChain_blocks (hself : ∀ i, R (row i) (row i)) (hnext : ∀ i, R (row i) (row (i + 1)))
    (n : ℕ) : (blocks row count n).IsChain R := by
  induction n with
  | zero => exact .nil
  | succ n ih =>
    rw [blocks_succ, List.isChain_append]
    refine ⟨ih, List.isChain_replicate_of_rel _ (hself n), ?_⟩
    intro q hq s hs
    rw [List.replicate_succ, List.head?_cons] at hs
    obtain rfl := Option.some.inj hs
    cases n with
    | zero => cases hq
    | succ n =>
      rw [getLast?_blocks] at hq
      obtain rfl := Option.some.inj hq
      exact hnext n

end Blocks

namespace InstructionRow

theorem follows_self (r : InstructionRow Goldilocks) : Follows r r :=
  ⟨.inl rfl, fun hne => absurd rfl hne, fun _ => rfl⟩

theorem follows_of_address_succ {r s : InstructionRow Goldilocks} (h : s.address = r.address + 1)
    (hannounced : s.currentInstruction = r.nextInstruction) : Follows r s := by
  refine ⟨.inr h, fun _ => hannounced, ?_⟩
  intro he
  rw [h, add_eq_left] at he
  exact absurd he one_ne_zero

theorem isChain_follows_filling {r : InstructionRow Goldilocks} (h : r.nextInstruction = 0)
    (n : ℕ) : (r :: filling.extra r n).IsChain Follows := by
  refine filling.isChain_extra ?_ ?_ n
  · exact follows_of_address_succ (by simp [filling]) h.symm
  · intro j
    refine follows_of_address_succ ?_ rfl
    simp only [filling]
    push_cast
    ring

end InstructionRow

namespace Program
variable {program : Program}

theorem follows_row_succ (program : Program) (i : ℕ) :
    InstructionRow.Follows (program.row i) (program.row (i + 1)) :=
  InstructionRow.follows_of_address_succ (Nat.cast_succ i) rfl

/-- A matrix with copies of the row of every address keeps to the constraints, also when it is
padded. -/
theorem accepts_blocks (hne : program ≠ #[]) {count : ℕ → ℕ} {r : InstructionRow Goldilocks}
    (hlast : (blocks program.row count program.size).getLast? = some r) (n : ℕ) :
    Kind.instruction.Accepts ((blocks program.row count program.size ++
      InstructionRow.filling.extra r n).map InstructionRow.toList) := by
  obtain ⟨k, hk⟩ : ∃ k, program.size = k + 1 :=
    Nat.exists_eq_succ_of_ne_zero (Array.size_eq_zero_iff.not.mpr hne)
  rw [hk] at hlast ⊢
  rw [getLast?_blocks] at hlast
  obtain rfl := Option.some.inj hlast
  have hannounces : (program.row k).nextInstruction = 0 := by
    rw [row, Array.getElem?_eq_none (Nat.le_of_eq hk)]
    rfl
  refine (InstructionRow.layout.accepts_iff _).mpr ⟨?_, program.row 0, ?_, ?_⟩
  · refine (List.IsChain.iff InstructionRow.transition_eq_zero_iff).mpr ?_
    refine (InstructionRow.filling.isChain_append_extra (getLast?_blocks _ _ k) n).mpr ⟨?_, ?_⟩
    · exact isChain_blocks _ _ (fun i => InstructionRow.follows_self _) program.follows_row_succ _
    · exact InstructionRow.isChain_follows_filling hannounces n
  · rw [Option.mem_def, List.head?_append, head?_blocks, Option.some_or]
  · exact (InstructionRow.boundary_eq_zero_iff _).mpr Nat.cast_zero

end Program

namespace Trace.Records
variable {program : Program} {input : List Goldilocks} {states : List Machine} {t : Trace}
variable (h : Records program input states t) (hshort : program.size < Goldilocks.modulus)
include h hshort

theorem row_of_mem_dropLast {r : Register Goldilocks} (hr : r ∈ List.dropLast t) :
    r.instructionPointer.val < program.size ∧
      (⟨r.instructionPointer, r.currentInstruction, r.nextInstruction⟩ :
        InstructionRow Goldilocks) = program.row r.instructionPointer.val := by
  obtain ⟨n, hn, rfl⟩ := List.getElem_of_mem hr
  rw [List.length_dropLast] at hn
  rw [List.getElem_dropLast]
  obtain ⟨i, hcell, hcurrent, hnext⟩ :=
    h.fetched hshort (List.getElem?_eq_getElem (show n < List.length t by omega)) (by omega)
  refine ⟨(Array.getElem?_eq_some_iff.mp hcell).1, ?_⟩
  rw [Program.row, hcell, ← hnext, ← hcurrent, Goldilocks.natCast_val]
  rfl

theorem executedRows_eq : t.executedRows = (List.dropLast t).map fun r =>
    program.row r.instructionPointer.val := by
  rw [executedRows, h.unpadded.filter_eq_dropLast fun r => h.idle_last]
  refine List.map_congr_left fun r hr => ?_
  exact (h.row_of_mem_dropLast hshort hr).2

theorem filter_executedRows (i : ℕ) (hi : i < program.size) :
    t.executedRows.filter (·.address = (i : Goldilocks)) =
      List.replicate (t.executions i) (program.row i) := by
  have hval : ((i : ℕ) : Goldilocks).val = i := Goldilocks.natCast_val_of_lt (hi.trans hshort)
  rw [h.executedRows_eq hshort, List.filter_map, List.eq_replicate_iff]
  constructor
  · rw [List.length_map, executions, List.countP_eq_length_filter]
    simp [Function.comp_def, Program.row, Goldilocks.natCast_val]
  · intro r hr
    obtain ⟨q, hq, rfl⟩ := List.mem_map.mp hr
    have haddress := of_decide_eq_true (List.mem_filter.mp hq).2
    simp only [Program.row, Goldilocks.natCast_val] at haddress
    rw [haddress, hval]

theorem instructionRows_eq_blocks :
    t.instructionRows program = blocks program.row t.executions program.size := by
  have hinside : ∀ r ∈ program.instructionRows ++ t.executedRows,
      r.address.val < program.size := by
    intro r hr
    rcases List.mem_append.mp hr with hr | hr
    · exact (Program.mem_addresses_iff hshort).mp (List.mem_map_of_mem hr)
    · rw [h.executedRows_eq hshort] at hr
      obtain ⟨q, hq, rfl⟩ := List.mem_map.mp hr
      simp only [Program.row, Goldilocks.natCast_val]
      exact (h.row_of_mem_dropLast hshort hq).1
  rw [instructionRows_eq, sortBy_eq_flatMap_range _ hshort.le hinside]
  refine List.flatMap_congr fun i hi => ?_
  have hi := List.mem_range.mp hi
  have hval : ((i : ℕ) : Goldilocks).val = i := Goldilocks.natCast_val_of_lt (hi.trans hshort)
  rw [List.filter_append, Program.filter_instructionRows hshort (hval.symm ▸ hi), hval,
    h.filter_executedRows hshort i hi, List.replicate_succ, List.singleton_append]

end Trace.Records

/-- The instruction matrix derived from a run that ends has, by address, one row for the cell and
one for each of its executions, all the same; and the constraints accept it when it is padded. -/
theorem instruction_table_complete {fuel : ℕ} {program : Program} {input : List Goldilocks}
    {run : Run} (hne : program ≠ #[]) (hshort : program.size < Goldilocks.modulus)
    (hrun : simulate fuel program input = some (.ok run)) (d : Domain) :
    Kind.instruction.derive run.trace program =
        .ok ((blocks program.row run.trace.executions program.size).map InstructionRow.toList) ∧
      ∃ i, Table.ofTrace .instruction run.trace program d = .ok i ∧
        i.matrix = (InstructionRow.filling.padded
          (blocks program.row run.trace.executions program.size)).map InstructionRow.toList ∧
        Kind.instruction.Accepts i.matrix := by
  obtain ⟨states, h⟩ := exists_records hrun
  have hrows := h.instructionRows_eq_blocks hshort
  obtain ⟨i, hi, hmatrix⟩ := Trace.exists_ofTrace_instruction hne h.unpadded d
  obtain ⟨r, n, hlast, hpadded⟩ :=
    InstructionRow.filling.exists_padded_eq (run.trace.instructionRows_ne_nil hne)
  rw [hrows] at hmatrix hlast hpadded
  refine ⟨?_, i, hi, hmatrix, ?_⟩
  · rw [Trace.derive_instruction h.unpadded, hrows]
  · rw [hmatrix, hpadded]
    exact Program.accepts_blocks hne hlast n

theorem draining_instruction_table :
    simulate 7 drain [(2 : ℕ)] = some (.ok draining) ∧
      (List.range 6).map draining.trace.executions = [1, 1, 0, 2, 2, 0] ∧
      Kind.instruction.derive draining.trace drain =
        .ok ((blocks drain.row draining.trace.executions 6).map InstructionRow.toList) ∧
      ∃ i, Table.ofTrace .instruction draining.trace drain ⟨2, 1, 1⟩ = .ok i ∧
        i.matrix = (InstructionRow.filling.padded
          (blocks drain.row draining.trace.executions 6)).map InstructionRow.toList ∧
        Kind.instruction.Accepts i.matrix := by
  have hcounts : (List.range 6).map draining.trace.executions = [1, 1, 0, 2, 2, 0] := by decide
  exact ⟨simulate_draining, hcounts,
    instruction_table_complete (by decide) (by decide) simulate_draining ⟨2, 1, 1⟩⟩

end TapeAir
