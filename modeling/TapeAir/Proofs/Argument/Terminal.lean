import TapeAir.Proofs.Argument.Product
import TapeAir.Table.Basic
/-! # Terminals

Extending a table multiplies the initial value by the factors of the rows that its argument takes
in. So the terminal is the initial value times the product of a collection of triples, and two
terminals agree for all challenges exactly when the collections are equal.
-/
namespace TapeAir

namespace Row
variable {σ ρ : Type} (extended : σ → ρ → ExtendedRow) (next : σ → ρ → σ)

def carried : σ → List ρ → List ExtendedRow
  | _, [] => []
  | s, r :: rows => extended s r :: carried (next s r) rows

theorem carried_concat (s : σ) (rows : List ρ) (r : ρ) :
    carried extended next s (rows ++ [r]) =
      carried extended next s rows ++ [extended (rows.foldl next s) r] := by
  induction rows generalizing s with
  | nil => rfl
  | cons q rows ih => exact congrArg (extended s q :: ·) (ih (next s q))

theorem length_carried (s : σ) (rows : List ρ) :
    (carried extended next s rows).length = rows.length := by
  induction rows generalizing s with
  | nil => rfl
  | cons r rows ih => exact congrArg (· + 1) (ih (next s r))

variable {extended next}

/-- A rule that is known row by row is known for the whole matrix. -/
theorem carry?_eq_carried {rule : σ → Row → Option (ExtendedRow × σ)} {cells : ρ → Row}
    (h : ∀ s r, rule s (cells r) = some (extended s r, next s r)) (s : σ) (rows : List ρ) :
    carry? rule s (rows.map cells) = some (carried extended next s rows, rows.foldl next s) := by
  induction rows generalizing s with
  | nil => rfl
  | cons r rows ih =>
    rw [List.map_cons, carry?, h]
    simp only [Option.bind_eq_bind, Option.bind_some, ih]
    rfl

end Row

def Weights.product (w : Weights Cubic) (s : Multiset Triple) : Cubic :=
  (s.map fun x => w.point - w.compress x).prod

@[simp] theorem Weights.product_zero (w : Weights Cubic) : w.product 0 = 1 := rfl

@[simp] theorem Weights.product_cons (w : Weights Cubic) (x : Triple) (s : Multiset Triple) :
    w.product (x ::ₘ s) = (w.point - w.compress x) * w.product s := by
  simp [product]

theorem MemoryRow.accesses_cons (r : MemoryRow Goldilocks) (rows : List (MemoryRow Goldilocks)) :
    accesses (r :: rows) =
      if r.interweaved = 0 then r.access ::ₘ accesses rows else accesses rows := by
  by_cases h : r.interweaved = 0 <;> simp [accesses, h]

theorem InstructionRow.lookups_cons_cons (r s : InstructionRow Goldilocks)
    (rows : List (InstructionRow Goldilocks)) :
    lookups (r :: s :: rows) =
      if s.address = r.address then s.lookup ::ₘ lookups (s :: rows) else lookups (s :: rows) := by
  by_cases h : s.address = r.address <;> simp [lookups, h]

namespace Extension
variable (ch : Challenges)

def processorNext (p : Permutations) (r : Register Goldilocks) : Permutations :=
  if r.currentInstruction = 0 then p else
    ⟨p.instruction * (ch.instructionWeights.point - ch.instructionWeights.compress r.lookup),
      p.memory * (ch.memoryWeights.point - ch.memoryWeights.compress r.access)⟩

theorem processor?_eq (p : Permutations) (r : Register Goldilocks) :
    processor? ch p r.toList =
      some (Row.lift r.toList ++ [p.instruction, p.memory], processorNext ch p r) := by
  simp only [processorNext, ← Weights.factor_eq]
  by_cases h : r.currentInstruction = 0
  · rw [if_pos h]
    exact if_pos h
  · rw [if_neg h]
    exact if_neg h

def productNext (w : Weights Cubic) (entry : Register Goldilocks → Triple) (x : Cubic)
    (r : Register Goldilocks) : Cubic :=
  if r.currentInstruction = 0 then x else x * (w.point - w.compress (entry r))

theorem processorNext_eq (p : Permutations) (r : Register Goldilocks) :
    processorNext ch p r =
      ⟨productNext ch.instructionWeights Register.lookup p.instruction r,
        productNext ch.memoryWeights Register.access p.memory r⟩ := by
  rw [processorNext, productNext, productNext]
  split <;> rfl

theorem foldl_productNext (w : Weights Cubic) (entry : Register Goldilocks → Triple) (x : Cubic)
    (t : Trace) :
    t.foldl (productNext w entry) x =
      x * w.product ((t.filter (·.currentInstruction ≠ 0)).map entry : List Triple) := by
  induction t generalizing x with
  | nil => exact (mul_one x).symm
  | cons r t ih =>
    rw [List.foldl_cons, ih, productNext]
    by_cases h : r.currentInstruction = 0
    · simp [h]
    · simp [h, ← Multiset.cons_coe, mul_assoc]

theorem foldl_processorNext (p : Permutations) (t : Trace) :
    t.foldl (processorNext ch) p = ⟨p.instruction * ch.instructionWeights.product t.lookups,
      p.memory * ch.memoryWeights.product t.accesses⟩ := by
  have hslots : t.foldl (processorNext ch) p =
      ⟨t.foldl (productNext ch.instructionWeights Register.lookup) p.instruction,
        t.foldl (productNext ch.memoryWeights Register.access) p.memory⟩ := by
    induction t generalizing p with
    | nil => rfl
    | cons r t ih =>
      rw [List.foldl_cons, ih, processorNext_eq]
      rfl
  rw [hslots, foldl_productNext, foldl_productNext, Trace.lookups, Trace.accesses]

def memoryNext (x : Cubic) (r : MemoryRow Goldilocks) : Cubic :=
  if r.interweaved = 0 then x * (ch.memoryWeights.point - ch.memoryWeights.compress r.access)
  else x

theorem memory?_eq (x : Cubic) (r : MemoryRow Goldilocks) :
    memory? ch x r.toList = some (Row.lift r.toList ++ [x], memoryNext ch x r) := by
  simp only [memoryNext, ← Weights.factor_eq]
  by_cases h : r.interweaved = 0
  · rw [if_pos h]
    exact if_neg (not_not.mpr h)
  · rw [if_neg h]
    exact if_pos h

theorem foldl_memoryNext (x : Cubic) (rows : List (MemoryRow Goldilocks)) :
    rows.foldl (memoryNext ch) x = x * ch.memoryWeights.product (MemoryRow.accesses rows) := by
  induction rows generalizing x with
  | nil => simp [MemoryRow.accesses]
  | cons r rows ih =>
    rw [List.foldl_cons, ih, MemoryRow.accesses_cons, memoryNext]
    split
    · rw [Weights.product_cons, mul_assoc]
    · rfl

def instructionNext (s : Option Goldilocks × Cubic) (r : InstructionRow Goldilocks) :
    Option Goldilocks × Cubic :=
  (some r.address, if s.1 = some r.address then
    s.2 * (ch.instructionWeights.point - ch.instructionWeights.compress r.lookup) else s.2)

theorem instruction?_eq (s : Option Goldilocks × Cubic) (r : InstructionRow Goldilocks) :
    instruction? ch s r.toList =
      some (Row.lift r.toList ++ [(instructionNext ch s r).2], instructionNext ch s r) := by
  simp only [instructionNext, ← Weights.factor_eq]
  by_cases h : s.1 = some r.address
  · rw [if_pos h]
    exact if_pos h
  · rw [if_neg h]
    exact if_neg h

theorem foldl_instructionNext (x : Cubic) (r : InstructionRow Goldilocks)
    (rows : List (InstructionRow Goldilocks)) :
    (rows.foldl (instructionNext ch) (some r.address, x)).2 =
      x * ch.instructionWeights.product (InstructionRow.lookups (r :: rows)) := by
  induction rows generalizing x r with
  | nil => simp [InstructionRow.lookups]
  | cons s rows ih =>
    rw [List.foldl_cons, instructionNext, ih, InstructionRow.lookups_cons_cons]
    by_cases h : s.address = r.address
    · rw [if_pos h, if_pos (congrArg some h.symm), Weights.product_cons, mul_assoc]
    · rw [if_neg h, if_neg fun he => h (Option.some.inj he).symm]

theorem foldl_instructionNext_none (x : Cubic) (rows : List (InstructionRow Goldilocks)) :
    (rows.foldl (instructionNext ch) (none, x)).2 =
      x * ch.instructionWeights.product (InstructionRow.lookups rows) := by
  cases rows with
  | nil => simp [InstructionRow.lookups]
  | cons r rows => exact foldl_instructionNext ch x r rows

end Extension

def Table.ofRows (k : Kind) (rows : List Row) : Table k :=
  { Table.empty k rows.length ⟨2, 1, 1⟩ with matrix := rows }

namespace Table
variable (ch : Challenges) (initial : Permutations)

theorem extend_processor {p : Table .processor} {t : Trace} (h : p.matrix = t.map Register.toList) :
    ∃ p', p.extend ch initial = .ok p' ∧
      p'.extendedMatrix = Row.carried (fun p r => Row.lift r.toList ++ [p.instruction, p.memory])
        (Extension.processorNext ch) initial t ∧
      p'.summary = (⟨initial.instruction * ch.instructionWeights.product t.lookups,
        initial.memory * ch.memoryWeights.product t.accesses⟩ : Permutations) := by
  have hcarry := Row.carry?_eq_carried (Extension.processor?_eq ch) initial t
  rw [Extension.foldl_processorNext] at hcarry
  exact ⟨_, by rw [extend, Kind.extend?, h, hcarry], rfl, rfl⟩

theorem extend_memory {m : Table .memory} {rows : List (MemoryRow Goldilocks)}
    (h : m.matrix = rows.map MemoryRow.toList) :
    ∃ m', m.extend ch initial = .ok m' ∧
      m'.extendedMatrix = Row.carried (fun x r => Row.lift r.toList ++ [x])
        (Extension.memoryNext ch) initial.memory rows ∧
      m'.summary = initial.memory * ch.memoryWeights.product (MemoryRow.accesses rows) := by
  have hcarry := Row.carry?_eq_carried (Extension.memory?_eq ch) initial.memory rows
  rw [Extension.foldl_memoryNext] at hcarry
  exact ⟨_, by rw [extend, Kind.extend?, h, hcarry], rfl, rfl⟩

theorem extend_instruction {i : Table .instruction} {rows : List (InstructionRow Goldilocks)}
    (h : i.matrix = rows.map InstructionRow.toList) :
    ∃ i', i.extend ch initial = .ok i' ∧
      i'.extendedMatrix = Row.carried
        (fun s r => Row.lift r.toList ++ [(Extension.instructionNext ch s r).2])
        (Extension.instructionNext ch) (none, initial.instruction) rows ∧
      i'.summary = initial.instruction *
        ch.instructionWeights.product (InstructionRow.lookups rows) := by
  have hcarry := Row.carry?_eq_carried (Extension.instruction?_eq ch) (none, initial.instruction)
    rows
  exact ⟨_, by rw [extend, Kind.extend?, h, hcarry]; rfl, rfl,
    Extension.foldl_instructionNext_none ch initial.instruction rows⟩

end Table

end TapeAir
