import TapeAir.Proofs.Argument.Terminal
/-! # What agreeing terminals decide

Two tables with the same initial value have the same terminals under all challenges exactly when
their arguments take in the same triples. Where the compressed triples differ, the terminals agree
at no more points than the larger collection has members.
-/
namespace TapeAir

/-- Agreement between two terminals decides whether two collections of triples are equal. The
challenges give the weights of the argument, and its point can be chosen. -/
structure Decides (agree : Challenges → Prop) (weights : Challenges → Weights Cubic)
    (withPoint : Challenges → Cubic → Challenges) (s t : Multiset Triple) : Prop where
  agree_iff : s.card < Goldilocks.modulus ^ 3 → t.card < Goldilocks.modulus ^ 3 →
    ((∀ ch, agree ch) ↔ s = t)
  few_points : ∀ ch, s.map (weights ch).compress ≠ t.map (weights ch).compress →
    {x | agree (withPoint ch x)}.encard ≤ (max s.card t.card : ℕ)

theorem decides_of_products {agree : Challenges → Prop} {weights : Challenges → Weights Cubic}
    {withPoint : Challenges → Cubic → Challenges} {s t : Multiset Triple} {initial : Cubic}
    (hinitial : initial ≠ 0)
    (hagree : ∀ ch, agree ch ↔
      initial * (weights ch).product s = initial * (weights ch).product t)
    (hpoint : ∀ ch x, weights (withPoint ch x) = { weights ch with point := x })
    (hweights : Function.Surjective weights) : Decides agree weights withPoint s t := by
  have hproduct (w : Weights Cubic) (u : Multiset Triple) (x : Cubic) :
      ({ w with point := x } : Weights Cubic).product u =
        ((u.map w.compress).map fun a => x - a).prod := by
    rw [Multiset.map_map]
    rfl
  simp only [mul_right_inj' hinitial] at hagree
  refine ⟨fun hs ht => ⟨?_, ?_⟩, ?_⟩
  · intro h
    -- under the weights with which compressing is injective every point is some challenge
    refine Multiset.map_injective (Weights.compress_powers_injective 0) ?_
    have hcard (u : Multiset Triple) (hu : u.card < Goldilocks.modulus ^ 3)
        (f : Triple → Cubic) : (u.map f).card < Nat.card Cubic :=
      (Multiset.card_map f u).trans_lt (hu.trans_eq Cubic.card_eq.symm)
    refine eq_of_forall_product_eq (hcard s hs _) (hcard t ht _) ?_
    intro x
    obtain ⟨ch, hch⟩ := hweights (Weights.powers x)
    have hx := (hagree ch).mp (h ch)
    rw [hch] at hx
    exact (hproduct (Weights.powers 0) s x).symm.trans (hx.trans (hproduct (Weights.powers 0) t x))
  · rintro rfl ch
    exact (hagree ch).mpr rfl
  · intro ch hne
    have hset : {x | agree (withPoint ch x)} =
        {x | ((s.map (weights ch).compress).map fun a => x - a).prod =
          ((t.map (weights ch).compress).map fun a => x - a).prod} := by
      ext x
      rw [Set.mem_ofPred_eq, Set.mem_ofPred_eq, hagree, hpoint, hproduct, hproduct]
    have hcount := encard_product_eq_le hne
    rwa [← hset, Multiset.card_map, Multiset.card_map] at hcount

def MemoryTerminalsAgree (p : Table .processor) (m : Table .memory) (initial : Permutations)
    (ch : Challenges) : Prop :=
  ∃ p' m', p.extend ch initial = .ok p' ∧ m.extend ch initial = .ok m' ∧
    Permutations.memory p'.summary = m'.summary

def InstructionTerminalsAgree (p : Table .processor) (i : Table .instruction)
    (initial : Permutations) (ch : Challenges) : Prop :=
  ∃ p' i', p.extend ch initial = .ok p' ∧ i.extend ch initial = .ok i' ∧
    Permutations.instruction p'.summary = i'.summary

section Tables
variable {p : Table .processor} {t : Trace} (hp : p.matrix = t.map Register.toList)
variable (initial : Permutations) (ch : Challenges)
include hp

theorem memoryTerminalsAgree_iff {m : Table .memory} {rows : List (MemoryRow Goldilocks)}
    (hm : m.matrix = rows.map MemoryRow.toList) :
    MemoryTerminalsAgree p m initial ch ↔
      initial.memory * ch.memoryWeights.product t.accesses =
        initial.memory * ch.memoryWeights.product (MemoryRow.accesses rows) := by
  obtain ⟨p', hp', -, hpsummary⟩ := Table.extend_processor ch initial hp
  obtain ⟨m', hm', -, hmsummary⟩ := Table.extend_memory ch initial hm
  simp only [MemoryTerminalsAgree, hp', hm', Except.ok.injEq]
  constructor
  · rintro ⟨_, _, rfl, rfl, h⟩
    rwa [hpsummary, hmsummary] at h
  · intro h
    exact ⟨p', m', rfl, rfl, by rwa [hpsummary, hmsummary]⟩

theorem instructionTerminalsAgree_iff {i : Table .instruction}
    {rows : List (InstructionRow Goldilocks)} (hi : i.matrix = rows.map InstructionRow.toList) :
    InstructionTerminalsAgree p i initial ch ↔
      initial.instruction * ch.instructionWeights.product t.lookups =
        initial.instruction * ch.instructionWeights.product (InstructionRow.lookups rows) := by
  obtain ⟨p', hp', -, hpsummary⟩ := Table.extend_processor ch initial hp
  obtain ⟨i', hi', -, hisummary⟩ := Table.extend_instruction ch initial hi
  simp only [InstructionTerminalsAgree, hp', hi', Except.ok.injEq]
  constructor
  · rintro ⟨_, _, rfl, rfl, h⟩
    rwa [hpsummary, hisummary] at h
  · intro h
    exact ⟨p', i', rfl, rfl, by rwa [hpsummary, hisummary]⟩

end Tables

/-- Tables of rows always extend. From a nonzero initial value the memory argument decides whether
the processor table and the memory table have the same accesses, and the instruction argument
whether the processor table and the instruction table have the same lookups. -/
theorem terminals_decide {p : Table .processor} {m : Table .memory} {i : Table .instruction}
    {t : Trace} {memoryRows : List (MemoryRow Goldilocks)}
    {instructionRows : List (InstructionRow Goldilocks)}
    (hp : p.matrix = t.map Register.toList) (hm : m.matrix = memoryRows.map MemoryRow.toList)
    (hi : i.matrix = instructionRows.map InstructionRow.toList) (initial : Permutations) :
    (∀ ch, ∃ p' m' i', p.extend ch initial = .ok p' ∧ m.extend ch initial = .ok m' ∧
      i.extend ch initial = .ok i') ∧
    (initial.memory ≠ 0 →
      Decides (MemoryTerminalsAgree p m initial) Challenges.memoryWeights
        (fun ch x => { ch with beta := x }) t.accesses (MemoryRow.accesses memoryRows)) ∧
    (initial.instruction ≠ 0 →
      Decides (InstructionTerminalsAgree p i initial) Challenges.instructionWeights
        (fun ch x => { ch with alpha := x }) t.lookups
        (InstructionRow.lookups instructionRows)) := by
  refine ⟨?_, ?_, ?_⟩
  · intro ch
    obtain ⟨p', hp', -⟩ := Table.extend_processor ch initial hp
    obtain ⟨m', hm', -⟩ := Table.extend_memory ch initial hm
    obtain ⟨i', hi', -⟩ := Table.extend_instruction ch initial hi
    exact ⟨p', m', i', hp', hm', hi'⟩
  · intro hmemory
    refine decides_of_products hmemory (memoryTerminalsAgree_iff hp initial · hm)
      (fun _ _ => rfl) ?_
    intro w
    exact ⟨⟨0, 0, 0, w.first, w.second, w.third, 0, w.point, 0, 0, 0⟩, rfl⟩
  · intro hinstruction
    refine decides_of_products hinstruction (instructionTerminalsAgree_iff hp initial · hi)
      (fun _ _ => rfl) ?_
    intro w
    exact ⟨⟨w.first, w.second, w.third, 0, 0, 0, w.point, 0, 0, 0, 0⟩, rfl⟩

def detour : Trace :=
  [⟨0, 0, Instruction.right.code, Instruction.left.code, 0, 0, 0⟩,
    ⟨1, 1, Instruction.left.code, Instruction.increment.code, 1, 0, 0⟩,
    ⟨(2 : ℕ), (2 : ℕ), Instruction.increment.code, 0, 0, 0, 0⟩,
    ⟨(3 : ℕ), (3 : ℕ), 0, 0, 0, 1, 1⟩]

def detourMemory (x : Goldilocks) : List (MemoryRow Goldilocks) :=
  [⟨0, 0, 0, 0⟩, ⟨1, 0, 0, 1⟩, ⟨(2 : ℕ), 0, x, 0⟩, ⟨1, 1, 0, 0⟩]

def detourInstructions : List (InstructionRow Goldilocks) :=
  [⟨(2 : ℕ), Instruction.increment.code, 0⟩, ⟨(2 : ℕ), Instruction.increment.code, 0⟩,
    ⟨1, Instruction.left.code, Instruction.increment.code⟩,
    ⟨1, Instruction.left.code, Instruction.increment.code⟩,
    ⟨0, Instruction.right.code, Instruction.left.code⟩,
    ⟨0, Instruction.right.code, Instruction.left.code⟩]

/-- The value where the detour returns is zero. With another one there the terminals agree at three
points at most. -/
theorem detour_terminals_decide :
    let p := Table.ofRows .processor (detour.map Register.toList)
    let m (x : Goldilocks) := Table.ofRows .memory ((detourMemory x).map MemoryRow.toList)
    let i := Table.ofRows .instruction (detourInstructions.map InstructionRow.toList)
    let ch : Challenges := ⟨0, 0, 0, 1, ⟨0, 1, 0⟩, ⟨0, 0, 1⟩, 0, 0, 0, 0, 0⟩
    (∀ ch, MemoryTerminalsAgree p (m 0) ⟨1, 1⟩ ch) ∧
      (∀ ch, InstructionTerminalsAgree p i ⟨1, 1⟩ ch) ∧
      (¬∀ ch, MemoryTerminalsAgree p (m 1) ⟨1, 1⟩ ch) ∧
      {x | MemoryTerminalsAgree p (m 1) ⟨1, 1⟩ { ch with beta := x }}.encard ≤ 3 := by
  intro p m i ch
  have hp : p.matrix = detour.map Register.toList := rfl
  have hm (x : Goldilocks) : (m x).matrix = (detourMemory x).map MemoryRow.toList := rfl
  have hi : i.matrix = detourInstructions.map InstructionRow.toList := rfl
  have hmemory : (⟨1, 1⟩ : Permutations).memory ≠ 0 := one_ne_zero
  have hinstruction : (⟨1, 1⟩ : Permutations).instruction ≠ 0 := one_ne_zero
  obtain ⟨-, hright, hinstructions⟩ := terminals_decide hp (hm 0) hi ⟨1, 1⟩
  obtain ⟨-, hwrong, -⟩ := terminals_decide hp (hm 1) hi ⟨1, 1⟩
  have hdiffer : detour.accesses ≠ MemoryRow.accesses (detourMemory 1) := by decide
  refine ⟨?_, ?_, ?_, ?_⟩
  · exact ((hright hmemory).agree_iff (by decide) (by decide)).mpr (by decide)
  · exact ((hinstructions hinstruction).agree_iff (by decide) (by decide)).mpr (by decide)
  · rwa [(hwrong hmemory).agree_iff (by decide) (by decide)]
  · exact (hwrong hmemory).few_points ch (by decide +kernel)

end TapeAir
