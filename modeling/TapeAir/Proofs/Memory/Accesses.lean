import TapeAir.Proofs.Argument.Terminal
import TapeAir.Proofs.Memory.Derivation
/-! # The accesses of a derived memory matrix

Sorting keeps the accesses of a trace, and all rows that fill gaps or pad the matrix are
interweaved. So the memory argument takes in the rows of the trace but the last, each once.
-/
namespace TapeAir

namespace MemoryRow

theorem accesses_append (rows more : List (MemoryRow Goldilocks)) :
    accesses (rows ++ more) = accesses rows + accesses more := by
  simp [accesses]

theorem accesses_eq_of_perm {rows more : List (MemoryRow Goldilocks)} (h : rows.Perm more) :
    accesses rows = accesses more :=
  Multiset.coe_eq_coe.mpr ((h.filter _).map access)

theorem filter_repeats (r : MemoryRow Goldilocks) (n : ℕ) :
    (r.repeats n).filter (·.interweaved = 0) = [] := by
  simp [repeats, repeated]

theorem accesses_repeats (r : MemoryRow Goldilocks) (n : ℕ) : accesses (r.repeats n) = 0 := by
  rw [accesses, filter_repeats]
  rfl

theorem filter_gap (r s : MemoryRow Goldilocks) : (gap r s).filter (·.interweaved = 0) = [] := by
  by_cases h : s.memoryPointer = r.memoryPointer
  · rw [gap_eq h, filter_repeats]
  · rw [gap_eq_nil h]
    rfl

theorem filter_interweave (rows : List (MemoryRow Goldilocks)) :
    (interweave rows).filter (·.interweaved = 0) = rows.filter (·.interweaved = 0) := by
  induction rows with
  | nil => rfl
  | cons r rows ih =>
    cases rows with
    | nil => rfl
    | cons s rows =>
      rw [interweave, List.cons_append, List.filter_cons, List.filter_append, filter_gap,
        List.nil_append, ih, List.filter_cons (x := r)]

theorem accesses_interweave (rows : List (MemoryRow Goldilocks)) :
    accesses (interweave rows) = accesses rows := by
  rw [accesses, filter_interweave, accesses]

theorem filter_map_ofRegister (t : Trace) :
    (t.map ofRegister).filter (·.interweaved = 0) = t.map ofRegister := by
  refine List.filter_eq_self.mpr fun q hq => ?_
  obtain ⟨r, -, rfl⟩ := List.mem_map.mp hq
  exact decide_eq_true rfl

theorem accesses_map_ofRegister (t : Trace) :
    accesses (t.map ofRegister) = (t.map Register.access : List Triple) := by
  rw [accesses, filter_map_ofRegister, List.map_map]
  rfl

end MemoryRow

namespace Trace

def memoryAccesses (t : Trace) : List (MemoryRow Goldilocks) :=
  (List.dropLast t).map MemoryRow.ofRegister

theorem memoryRows_eq (t : Trace) :
    t.memoryRows = MemoryRow.interweave (sortBy MemoryRow.memoryPointer t.memoryAccesses) := rfl

theorem memoryRows_ne_nil {t : Trace} (h : 1 < List.length t) : t.memoryRows ≠ [] := by
  intro hnil
  have hhead := MemoryRow.head?_interweave (sortBy MemoryRow.memoryPointer t.memoryAccesses)
  rw [← memoryRows_eq, hnil, List.head?_nil] at hhead
  have hlength := (sortBy_perm MemoryRow.memoryPointer t.memoryAccesses).length_eq
  rw [List.head?_eq_none_iff.mp hhead.symm, memoryAccesses, List.length_map,
    List.length_dropLast] at hlength
  simp only [List.length_nil] at hlength
  omega

theorem accesses_memoryRows (t : Trace) :
    MemoryRow.accesses t.memoryRows = ((List.dropLast t).map Register.access : List Triple) := by
  rw [memoryRows_eq, MemoryRow.accesses_interweave,
    MemoryRow.accesses_eq_of_perm (sortBy_perm MemoryRow.memoryPointer _), memoryAccesses,
    MemoryRow.accesses_map_ofRegister]

theorem exists_ofTrace_memory {t : Trace} (hlength : 1 < List.length t) (h : t.Unpadded)
    (program : Program) (d : Domain) :
    ∃ m : Table .memory, Table.ofTrace .memory t program d = .ok m ∧
      m.matrix = (MemoryRow.filling.padded t.memoryRows).map MemoryRow.toList :=
  MemoryRow.filling.exists_ofTrace (memoryRows_ne_nil hlength) (derive_memory h program) d

theorem accesses_eq_dropLast {t : Trace} (h : t.Unpadded)
    (hlast : ∀ r ∈ List.getLast? t, r.currentInstruction = 0) :
    t.accesses = ((List.dropLast t).map Register.access : List Triple) := by
  rw [accesses, h.filter_eq_dropLast hlast]

end Trace

end TapeAir
