import Mathlib.Data.Multiset.Filter
import TapeAir.Constraint.Lookup
import TapeAir.Constraint.Memory
import TapeAir.Machine.Register
/-! # The triples that tables compare

Each permutation argument compares two collections of triples without regard to order: the memory
accesses of the processor with those of the memory table, and the executed instructions with the
repeated rows of the instruction table.
-/
namespace TapeAir

abbrev Triple := Goldilocks × Goldilocks × Goldilocks

def Register.access (r : Register Goldilocks) : Triple := (r.cycle, r.memoryPointer, r.memoryValue)

def MemoryRow.access (r : MemoryRow Goldilocks) : Triple :=
  (r.cycle, r.memoryPointer, r.memoryValue)

def Register.lookup (r : Register Goldilocks) : Triple :=
  (r.instructionPointer, r.currentInstruction, r.nextInstruction)

def InstructionRow.lookup (r : InstructionRow Goldilocks) : Triple :=
  (r.address, r.currentInstruction, r.nextInstruction)

def Trace.accesses (t : Trace) : Multiset Triple :=
  ((t.filter (·.currentInstruction ≠ 0)).map Register.access : List Triple)

def MemoryRow.accesses (rows : List (MemoryRow Goldilocks)) : Multiset Triple :=
  ((rows.filter (·.interweaved = 0)).map access : List Triple)

def Trace.lookups (t : Trace) : Multiset Triple :=
  ((t.filter (·.currentInstruction ≠ 0)).map Register.lookup : List Triple)

/-- The lookups of the rows that repeat the address of the row before. -/
def InstructionRow.lookups (rows : List (InstructionRow Goldilocks)) : Multiset Triple :=
  (((rows.zip rows.tail).filter fun p => p.2.address = p.1.address).map fun p => p.2.lookup :
    List Triple)

theorem mem_map_filter_iff {α β : Type} {p : α → Bool} {f : α → β} {l : List α} {x : β} :
    x ∈ (l.filter p).map f ↔ ∃ (n : ℕ) (a : α), l[n]? = some a ∧ p a ∧ f a = x := by
  rw [List.mem_map]
  constructor
  · rintro ⟨a, ha, rfl⟩
    obtain ⟨hmem, hp⟩ := List.mem_filter.mp ha
    obtain ⟨n, hn⟩ := List.mem_iff_getElem?.mp hmem
    exact ⟨n, a, hn, hp, rfl⟩
  · rintro ⟨n, a, hn, hp, rfl⟩
    exact ⟨a, List.mem_filter.mpr ⟨List.mem_of_getElem? hn, hp⟩, rfl⟩

theorem Trace.mem_accesses {t : Trace} {x : Triple} :
    x ∈ t.accesses ↔ ∃ (n : ℕ) (r : Register Goldilocks),
      t[n]? = some r ∧ r.currentInstruction ≠ 0 ∧ r.access = x := by
  rw [accesses, Multiset.mem_coe, mem_map_filter_iff]
  simp only [decide_eq_true_eq]

theorem Trace.mem_lookups {t : Trace} {x : Triple} :
    x ∈ t.lookups ↔ ∃ (n : ℕ) (r : Register Goldilocks),
      t[n]? = some r ∧ r.currentInstruction ≠ 0 ∧ r.lookup = x := by
  rw [lookups, Multiset.mem_coe, mem_map_filter_iff]
  simp only [decide_eq_true_eq]

theorem MemoryRow.mem_accesses {rows : List (MemoryRow Goldilocks)} {x : Triple} :
    x ∈ accesses rows ↔ ∃ (i : ℕ) (r : MemoryRow Goldilocks),
      rows[i]? = some r ∧ r.interweaved = 0 ∧ r.access = x := by
  rw [accesses, Multiset.mem_coe, mem_map_filter_iff]
  simp only [decide_eq_true_eq]

theorem InstructionRow.exists_row_of_mem_lookups {rows : List (InstructionRow Goldilocks)}
    {x : Triple} (h : x ∈ lookups rows) : ∃ r ∈ rows, r.lookup = x := by
  rw [lookups, Multiset.mem_coe, List.mem_map] at h
  obtain ⟨p, hp, rfl⟩ := h
  have hmem := List.of_mem_zip (List.mem_filter.mp hp).1
  exact ⟨p.2, List.mem_of_mem_tail hmem.2, rfl⟩

end TapeAir
