import TapeAir.Proofs.Argument.Equality
import TapeAir.Proofs.Lookup.Derivation
import TapeAir.Proofs.Memory.Accesses
/-! # Terminals of tables made from one trace

No argument takes in a row of padding: behind a trace the processor rows are idle, the memory rows
interweaved, and the instruction rows repeat no address. So the arguments of the tables made from
one trace take in what the derived rows show, and that is the same on both sides.
-/
namespace TapeAir

theorem Register.idle_filling (r : Register Goldilocks) (n : ℕ) :
    ∀ s ∈ filling.extra r n, s.currentInstruction = 0 := by
  intro s hs
  obtain ⟨j, -, rfl⟩ := List.mem_map.mp hs
  rfl

namespace Trace
variable {t more : Trace}

theorem filter_append_idle (h : ∀ r ∈ more, r.currentInstruction = 0) :
    (t ++ more).filter (·.currentInstruction ≠ 0) = t.filter (·.currentInstruction ≠ 0) := by
  have hidle : more.filter (·.currentInstruction ≠ 0) = [] := by
    rw [List.filter_eq_nil_iff]
    intro r hr hactive
    exact of_decide_eq_true hactive (h r hr)
  rw [List.filter_append, hidle, List.append_nil]

theorem accesses_append_idle (h : ∀ r ∈ more, r.currentInstruction = 0) :
    accesses (t ++ more) = t.accesses := by
  rw [accesses, filter_append_idle h, accesses]

theorem lookups_append_idle (h : ∀ r ∈ more, r.currentInstruction = 0) :
    lookups (t ++ more) = t.lookups := by
  rw [lookups, filter_append_idle h, lookups]

theorem accesses_padded (hne : t ≠ []) : accesses (Register.filling.padded t) = t.accesses := by
  obtain ⟨r, n, -, hpadded⟩ := Register.filling.exists_padded_eq hne
  rw [hpadded, accesses_append_idle (Register.idle_filling r n)]

theorem lookups_padded (hne : t ≠ []) : lookups (Register.filling.padded t) = t.lookups := by
  obtain ⟨r, n, -, hpadded⟩ := Register.filling.exists_padded_eq hne
  rw [hpadded, lookups_append_idle (Register.idle_filling r n)]

theorem accesses_padded_memoryRows (hlength : 1 < List.length t) (h : t.Unpadded)
    (hlast : ∀ r ∈ List.getLast? t, r.currentInstruction = 0) :
    MemoryRow.accesses (MemoryRow.filling.padded t.memoryRows) = t.accesses := by
  obtain ⟨r, n, -, hpadded⟩ := MemoryRow.filling.exists_padded_eq (memoryRows_ne_nil hlength)
  have hinterweaved : MemoryRow.accesses (MemoryRow.filling.extra r n) = 0 :=
    MemoryRow.accesses_repeats r n
  rw [hpadded, MemoryRow.accesses_append, hinterweaved, add_zero, accesses_memoryRows,
    accesses_eq_dropLast h hlast]

theorem lookups_padded_instructionRows {program : Program} (hprogram : program ≠ #[])
    (hshort : program.size < Goldilocks.modulus)
    (hinside : ∀ r ∈ t, r.currentInstruction ≠ 0 → r.instructionPointer.val < program.size) :
    InstructionRow.lookups (InstructionRow.filling.padded (t.instructionRows program)) =
      t.lookups := by
  obtain ⟨r, n, hlast, hpadded⟩ :=
    InstructionRow.filling.exists_padded_eq (t.instructionRows_ne_nil hprogram)
  rw [hpadded, InstructionRow.lookups_append hlast (InstructionRow.isChain_filling r n),
    lookups_instructionRows hshort hinside]

end Trace

/-- From a trace that idles in its last row alone, whatever cycles it shows, both tables are made,
they extend, and both store the product over the accesses of the trace. -/
theorem memory_terminals_of_trace {t : Trace} (hlength : 2 ≤ List.length t) (h : t.Unpadded)
    (hlast : ∀ r ∈ List.getLast? t, r.currentInstruction = 0) (program : Program) (d : Domain) :
    ∃ p m, Table.ofTrace .processor t program d = .ok p ∧
      Table.ofTrace .memory t program d = .ok m ∧
      ∀ initial ch, ∃ p' m', p.extend ch initial = .ok p' ∧ m.extend ch initial = .ok m' ∧
        Permutations.memory p'.summary = m'.summary ∧
        m'.summary = initial.memory * ch.memoryWeights.product t.accesses := by
  have hne : t ≠ [] := List.ne_nil_of_length_pos (by omega)
  obtain ⟨p, hp, hpmatrix⟩ :=
    Register.filling.exists_ofTrace hne (Trace.derive_processor t program) d
  obtain ⟨m, hm, hmmatrix⟩ := Trace.exists_ofTrace_memory hlength h program d
  refine ⟨p, m, hp, hm, fun initial ch => ?_⟩
  obtain ⟨p', hp', -, hpsummary⟩ := Table.extend_processor ch initial hpmatrix
  obtain ⟨m', hm', -, hmsummary⟩ := Table.extend_memory ch initial hmmatrix
  rw [Trace.accesses_padded hne] at hpsummary
  rw [Trace.accesses_padded_memoryRows hlength h hlast] at hmsummary
  exact ⟨p', m', hp', hm', by rw [hpsummary, hmsummary], hmsummary⟩

theorem detour_memory_terminals :
    detour.memoryRows = [⟨0, 0, 0, 0⟩, ⟨1, 0, 0, 1⟩, ⟨(2 : ℕ), 0, 0, 0⟩, ⟨1, 1, 0, 0⟩] ∧
      ∃ p m, Table.ofTrace .processor detour #[] ⟨2, 1, 1⟩ = .ok p ∧
        Table.ofTrace .memory detour #[] ⟨2, 1, 1⟩ = .ok m ∧
        ∀ initial ch, ∃ p' m', p.extend ch initial = .ok p' ∧ m.extend ch initial = .ok m' ∧
          Permutations.memory p'.summary = m'.summary ∧
          m'.summary = initial.memory * ch.memoryWeights.product detour.accesses := by
  refine ⟨by cbv, memory_terminals_of_trace (by decide) (by decide) ?_ #[] ⟨2, 1, 1⟩⟩
  intro r hr
  exact Option.some.inj hr ▸ rfl

/-- From a trace whose instructions stand at addresses of a program, and which idles in its last row
at most, both tables are made, they extend, and both store the product over the lookups of the
trace. -/
theorem instruction_terminals_of_trace {t : Trace} {program : Program} (hprogram : program ≠ #[])
    (hshort : program.size < Goldilocks.modulus) (hne : t ≠ []) (h : t.Unpadded)
    (hinside : ∀ r ∈ t, r.currentInstruction ≠ 0 → r.instructionPointer.val < program.size)
    (d : Domain) :
    ∃ p i, Table.ofTrace .processor t program d = .ok p ∧
      Table.ofTrace .instruction t program d = .ok i ∧
      ∀ initial ch, ∃ p' i', p.extend ch initial = .ok p' ∧ i.extend ch initial = .ok i' ∧
        Permutations.instruction p'.summary = i'.summary ∧
        i'.summary = initial.instruction * ch.instructionWeights.product t.lookups := by
  obtain ⟨p, hp, hpmatrix⟩ :=
    Register.filling.exists_ofTrace hne (Trace.derive_processor t program) d
  obtain ⟨i, hi, himatrix⟩ := Trace.exists_ofTrace_instruction hprogram h d
  refine ⟨p, i, hp, hi, fun initial ch => ?_⟩
  obtain ⟨p', hp', -, hpsummary⟩ := Table.extend_processor ch initial hpmatrix
  obtain ⟨i', hi', -, hisummary⟩ := Table.extend_instruction ch initial himatrix
  rw [Trace.lookups_padded hne] at hpsummary
  rw [Trace.lookups_padded_instructionRows hprogram hshort hinside] at hisummary
  exact ⟨p', i', hp', hi', by rw [hpsummary, hisummary], hisummary⟩

/-- The program `+[]`, which never ends. -/
def spin : Program :=
  #[Instruction.increment.code, Instruction.loopStart.code, (5 : ℕ), Instruction.loopEnd.code,
    (3 : ℕ)]

def spinning : Trace :=
  [⟨0, 0, Instruction.increment.code, Instruction.loopStart.code, 0, 0, 0⟩,
    ⟨1, 1, Instruction.loopStart.code, (5 : ℕ), 0, 1, 1⟩,
    ⟨(2 : ℕ), (3 : ℕ), Instruction.loopEnd.code, (3 : ℕ), 0, 1, 1⟩,
    ⟨(3 : ℕ), (3 : ℕ), Instruction.loopEnd.code, (3 : ℕ), 0, 1, 1⟩]

theorem spinning_instruction_terminals :
    Program.compile "+[]" = .ok spin ∧
      ∃ p i, Table.ofTrace .processor spinning spin ⟨2, 1, 1⟩ = .ok p ∧
        Table.ofTrace .instruction spinning spin ⟨2, 1, 1⟩ = .ok i ∧
        ∀ initial ch, ∃ p' i', p.extend ch initial = .ok p' ∧ i.extend ch initial = .ok i' ∧
          Permutations.instruction p'.summary = i'.summary ∧
          i'.summary = initial.instruction * ch.instructionWeights.product spinning.lookups := by
  refine ⟨rfl, ?_⟩
  exact instruction_terminals_of_trace (by decide) (by decide) (by decide) (by decide) (by decide)
    ⟨2, 1, 1⟩

end TapeAir
