import TapeAir.Proofs.Argument.Terminal
import TapeAir.Proofs.Table.Padding
import TapeAir.Proofs.Table.Sorting
/-! # The lookups of a derived instruction matrix

The sort is stable and the program comes first, so the row of the program stands first at its
address, and the executed rows repeat its address. Padding repeats no address. So the instruction
argument takes in the executed rows, each once.
-/
namespace TapeAir

namespace InstructionRow

def repeating (rows : List (InstructionRow Goldilocks)) : List (InstructionRow Goldilocks) :=
  ((rows.zip rows.tail).filter fun p => p.2.address = p.1.address).map Prod.snd

theorem lookups_eq_repeating (rows : List (InstructionRow Goldilocks)) :
    lookups rows = ((repeating rows).map lookup : List Triple) := by
  rw [lookups, repeating, List.map_map]
  rfl

theorem repeating_cons_cons (r s : InstructionRow Goldilocks)
    (rows : List (InstructionRow Goldilocks)) :
    repeating (r :: s :: rows) =
      if s.address = r.address then s :: repeating (s :: rows) else repeating (s :: rows) := by
  by_cases h : s.address = r.address <;> simp [repeating, h]

theorem filter_eq_nil_of_address_ne {r s : InstructionRow Goldilocks}
    {rows : List (InstructionRow Goldilocks)}
    (h : (r :: s :: rows).Pairwise fun r s => r.address.val ≤ s.address.val)
    (hne : s.address ≠ r.address) : (s :: rows).filter (·.address = r.address) = [] := by
  obtain ⟨hfirst, hrest⟩ := List.pairwise_cons.mp h
  rw [List.filter_eq_nil_iff]
  intro q hq hqr
  have hrs := hfirst s List.mem_cons_self
  have hsq : s.address.val ≤ q.address.val := by
    rcases List.mem_cons.mp hq with rfl | hq
    · exact le_rfl
    · exact (List.pairwise_cons.mp hrest).1 q hq
  rw [of_decide_eq_true hqr] at hsq
  exact hne (Goldilocks.ext (le_antisymm hsq hrs))

/-- In a sorted matrix the rows that repeat an address are all its rows but the first. -/
theorem filter_repeating {rows : List (InstructionRow Goldilocks)}
    (h : rows.Pairwise fun r s => r.address.val ≤ s.address.val) (a : Goldilocks) :
    (repeating rows).filter (·.address = a) = (rows.filter (·.address = a)).tail := by
  induction rows with
  | nil => rfl
  | cons r rows ih =>
    cases rows with
    | nil => by_cases hra : r.address = a <;> simp [repeating, hra]
    | cons s rows =>
      have ih := ih (List.pairwise_cons.mp h).2
      rw [repeating_cons_cons]
      by_cases hra : r.address = a
      · have hcons : (r :: s :: rows).filter (·.address = a) =
            r :: (s :: rows).filter (·.address = a) :=
          List.filter_cons_of_pos (by simpa using hra)
        rw [hcons, List.tail_cons]
        -- the tail drops the first row of an address; at a new address there is none after it
        by_cases hsr : s.address = r.address
        · rw [if_pos hsr]
          simp only [hsr, hra, List.filter_cons, decide_true, if_true, List.tail_cons] at ih ⊢
          rw [ih]
        · rw [if_neg hsr, ih, ← hra, filter_eq_nil_of_address_ne h hsr, List.tail_nil]
      · have hcons : (r :: s :: rows).filter (·.address = a) =
            (s :: rows).filter (·.address = a) :=
          List.filter_cons_of_neg (by simpa using hra)
        rw [hcons, ← ih]
        by_cases hsr : s.address = r.address
        · rw [if_pos hsr, List.filter_cons_of_neg (by simpa [hsr] using hra)]
        · rw [if_neg hsr]

theorem lookups_eq_zero {rows : List (InstructionRow Goldilocks)}
    (h : rows.IsChain fun r s => s.address ≠ r.address) : lookups rows = 0 := by
  induction rows with
  | nil => rfl
  | cons r rows ih =>
    cases rows with
    | nil => rfl
    | cons s rows =>
      obtain ⟨hne, hrest⟩ := List.isChain_cons_cons.mp h
      rw [lookups_cons_cons, if_neg hne, ih hrest]

theorem lookups_append {rows more : List (InstructionRow Goldilocks)}
    {r : InstructionRow Goldilocks} (hlast : rows.getLast? = some r)
    (h : (r :: more).IsChain fun r s => s.address ≠ r.address) :
    lookups (rows ++ more) = lookups rows := by
  induction rows with
  | nil => cases hlast
  | cons q rows ih =>
    cases rows with
    | nil =>
      obtain rfl := Option.some.inj hlast
      exact lookups_eq_zero h
    | cons s rows =>
      rw [List.getLast?_cons_cons] at hlast
      rw [List.cons_append, List.cons_append, lookups_cons_cons, lookups_cons_cons,
        ← List.cons_append, ih hlast]

theorem isChain_filling (r : InstructionRow Goldilocks) (n : ℕ) :
    (r :: filling.extra r n).IsChain fun r s => s.address ≠ r.address := by
  refine filling.isChain_extra ?_ ?_ n
  · intro h
    change r.address + ((1 : ℕ) : Goldilocks) = r.address at h
    rw [Nat.cast_one, add_eq_left] at h
    exact one_ne_zero h
  · intro j h
    have hstep : ((j + 2 : ℕ) : Goldilocks) = ((j + 1 : ℕ) : Goldilocks) + 1 := by
      push_cast
      ring
    change r.address + ((j + 2 : ℕ) : Goldilocks) = r.address + ((j + 1 : ℕ) : Goldilocks) at h
    rw [add_right_inj, hstep, add_eq_left] at h
    exact one_ne_zero h

end InstructionRow

namespace Program
variable {program : Program}

/-- The row of an address: the cell there and the one behind it, where a missing cell is zero. -/
def row (program : Program) (i : ℕ) : InstructionRow Goldilocks :=
  ⟨(i : Goldilocks), program[i]?.getD 0, program[i + 1]?.getD 0⟩

theorem instructionRows_eq_map (program : Program) :
    program.instructionRows = (List.range program.size).map program.row := by
  refine List.ext_getElem (by simp [instructionRows]) fun i hi _ => ?_
  have hi : i < program.size := by simpa [instructionRows] using hi
  simp [instructionRows, row, hi]

theorem addresses_eq (program : Program) :
    program.instructionRows.map (·.address) =
      (List.range program.size).map fun i : ℕ => (i : Goldilocks) := by
  rw [instructionRows_eq_map, List.map_map]
  rfl

theorem mem_addresses_iff {a : Goldilocks} (hshort : program.size < Goldilocks.modulus) :
    a ∈ program.instructionRows.map (·.address) ↔ a.val < program.size := by
  rw [addresses_eq, List.mem_map]
  constructor
  · rintro ⟨i, hi, rfl⟩
    have hi := List.mem_range.mp hi
    rwa [Goldilocks.natCast_val_of_lt (hi.trans hshort)]
  · intro ha
    exact ⟨a.val, List.mem_range.mpr ha, a.natCast_val⟩

theorem addresses_nodup (hshort : program.size < Goldilocks.modulus) :
    (program.instructionRows.map (·.address)).Nodup := by
  rw [addresses_eq]
  refine List.nodup_range.map_on ?_
  intro i hi j hj hij
  have hi := List.mem_range.mp hi
  have hj := List.mem_range.mp hj
  exact Goldilocks.natCast_inj_of_lt (hi.trans hshort) (hj.trans hshort) hij

theorem filter_instructionRows (hshort : program.size < Goldilocks.modulus) {a : Goldilocks}
    (ha : a.val < program.size) :
    program.instructionRows.filter (·.address = a) = [program.row a.val] := by
  have hcount := List.count_eq_one_of_mem (addresses_nodup hshort)
    ((mem_addresses_iff hshort).mpr ha)
  rw [List.count, List.countP_map] at hcount
  obtain ⟨r, hr⟩ : ∃ r, program.instructionRows.filter (·.address = a) = [r] := by
    rw [← List.length_eq_one_iff, ← List.countP_eq_length_filter]
    exact hcount
  have hmem : program.row a.val ∈ program.instructionRows.filter (·.address = a) := by
    rw [List.mem_filter, instructionRows_eq_map]
    exact ⟨List.mem_map_of_mem (List.mem_range.mpr ha), decide_eq_true a.natCast_val⟩
  rw [hr] at hmem ⊢
  rw [List.mem_singleton.mp hmem]

/-- Where only addresses of the program are executed, the row of the program is the first at each
address, and the executed rows are the others. -/
theorem tail_filter_append (hshort : program.size < Goldilocks.modulus)
    {executed : List (InstructionRow Goldilocks)}
    (h : ∀ r ∈ executed, r.address.val < program.size) (a : Goldilocks) :
    ((program.instructionRows ++ executed).filter (·.address = a)).tail =
      executed.filter (·.address = a) := by
  rw [List.filter_append]
  by_cases ha : a.val < program.size
  · rw [filter_instructionRows hshort ha, List.singleton_append, List.tail_cons]
  · have hprogram : program.instructionRows.filter (·.address = a) = [] := by
      rw [List.filter_eq_nil_iff]
      intro r hr hra
      have hmem := List.mem_map_of_mem (f := (·.address)) hr
      rw [of_decide_eq_true hra] at hmem
      exact ha ((mem_addresses_iff hshort).mp hmem)
    have hexecuted : executed.filter (·.address = a) = [] := by
      rw [List.filter_eq_nil_iff]
      intro r hr hra
      exact ha (of_decide_eq_true hra ▸ h r hr)
    rw [hprogram, hexecuted]
    rfl

end Program

namespace Trace
variable {t : Trace} {program : Program}

theorem instructionRows_eq (t : Trace) (program : Program) :
    t.instructionRows program =
      sortBy InstructionRow.address (program.instructionRows ++ t.executedRows) := rfl

theorem address_executedRows_lt
    (h : ∀ r ∈ t, r.currentInstruction ≠ 0 → r.instructionPointer.val < program.size) :
    ∀ r ∈ t.executedRows, r.address.val < program.size := by
  intro r hr
  obtain ⟨q, hq, rfl⟩ := List.mem_map.mp hr
  obtain ⟨hmem, hactive⟩ := List.mem_filter.mp hq
  exact h q hmem (of_decide_eq_true hactive)

/-- The rows of the derived matrix that repeat an address are the executed ones. -/
theorem repeating_instructionRows_perm (hshort : program.size < Goldilocks.modulus)
    (h : ∀ r ∈ t, r.currentInstruction ≠ 0 → r.instructionPointer.val < program.size) :
    (InstructionRow.repeating (t.instructionRows program)).Perm t.executedRows := by
  rw [List.perm_iff_count]
  intro r
  have hcount (rows : List (InstructionRow Goldilocks)) :
      (rows.filter (·.address = r.address)).count r = rows.count r :=
    List.count_filter (decide_eq_true rfl)
  rw [← hcount, instructionRows_eq, InstructionRow.filter_repeating (sortBy_pairwise _ _),
    filter_sortBy, Program.tail_filter_append hshort (address_executedRows_lt h), hcount]

theorem lookups_instructionRows (hshort : program.size < Goldilocks.modulus)
    (h : ∀ r ∈ t, r.currentInstruction ≠ 0 → r.instructionPointer.val < program.size) :
    InstructionRow.lookups (t.instructionRows program) = t.lookups := by
  have hexecuted : t.executedRows.map InstructionRow.lookup =
      (t.filter (·.currentInstruction ≠ 0)).map Register.lookup := by
    rw [executedRows, List.map_map]
    rfl
  rw [InstructionRow.lookups_eq_repeating, lookups, ← hexecuted, Multiset.coe_eq_coe]
  exact (repeating_instructionRows_perm hshort h).map _

theorem instructionRows_ne_nil (t : Trace) (h : program ≠ #[]) :
    t.instructionRows program ≠ [] := by
  intro hnil
  have hperm := sortBy_perm InstructionRow.address (program.instructionRows ++ t.executedRows)
  rw [← instructionRows_eq, hnil] at hperm
  have hrows := (List.append_eq_nil_iff.mp hperm.nil_eq.symm).1
  rw [Program.instructionRows, List.map_eq_nil_iff, List.zipIdx_eq_nil_iff,
    Array.toList_eq_nil_iff] at hrows
  exact h hrows

theorem exists_ofTrace_instruction (hne : program ≠ #[]) (h : t.Unpadded) (d : Domain) :
    ∃ i : Table .instruction, Table.ofTrace .instruction t program d = .ok i ∧
      i.matrix = (InstructionRow.filling.padded (t.instructionRows program)).map
        InstructionRow.toList := by
  have hderive := derive_instruction h program
  exact InstructionRow.filling.exists_ofTrace (t.instructionRows_ne_nil hne) hderive d

end Trace

end TapeAir
