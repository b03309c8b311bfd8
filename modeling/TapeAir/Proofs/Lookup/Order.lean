import TapeAir.Proofs.Argument.Triple
import TapeAir.Proofs.Constraint.Counting
import TapeAir.Proofs.Constraint.Lookup
/-! # The order of an accepted instruction matrix

The addresses of an accepted instruction matrix count up from zero. In a matrix with fewer rows than
the field has elements they do not wrap around, so an address determines its row: the matrix stores
one instruction at each address, and announces it at the address before. A trace with the lookups of
such a matrix shows at each address what is stored there.
-/
namespace TapeAir

namespace InstructionRow

structure Ordered (rows : List (InstructionRow Goldilocks)) : Prop where
  starts : ∀ r, rows[0]? = some r → r.address = 0
  follows : ∀ i r s, rows[i]? = some r → rows[i + 1]? = some s → Follows r s
  short : rows.length < Goldilocks.modulus

theorem Ordered.of_accepts {rows : List (InstructionRow Goldilocks)}
    (h : Kind.instruction.Accepts (rows.map toList)) (hlen : rows.length < Goldilocks.modulus) :
    Ordered rows := by
  refine ⟨?_, ?_, hlen⟩
  · intro r hr
    exact (boundary_eq_zero_iff r).mp (layout.boundary_of_accepts h hr)
  · intro i r s hr hs
    exact (transition_eq_zero_iff r s).mp (layout.transition_of_accepts h hr hs)

namespace Ordered
variable {rows : List (InstructionRow Goldilocks)} (h : Ordered rows)
include h

theorem countsUp : CountsUp address rows where
  starts := h.starts
  steps i r s hr hs := (h.follows i r s hr hs).address
  short := h.short

theorem eq_of_le {i j : ℕ} {r s : InstructionRow Goldilocks} (hij : i ≤ j)
    (hr : rows[i]? = some r) (hs : rows[j]? = some s) (he : r.address = s.address) : s = r := by
  induction j, hij using Nat.le_induction generalizing s with
  | base => exact Option.some.inj (hs.symm.trans hr)
  | succ j hij ih =>
    obtain ⟨q, hq⟩ := exists_row_of_le (Nat.le_succ j) hs
    have hqr := h.countsUp.eq_between hij (Nat.le_succ j) hr hq hs he
    obtain rfl := ih hq hqr.symm
    exact (h.follows j q s hq hs).repeated he.symm

theorem eq_of_address {r s : InstructionRow Goldilocks} (hr : r ∈ rows) (hs : s ∈ rows)
    (he : r.address = s.address) : r = s := by
  obtain ⟨i, hi⟩ := List.mem_iff_getElem?.mp hr
  obtain ⟨j, hj⟩ := List.mem_iff_getElem?.mp hs
  rcases Nat.le_total i j with hij | hij
  · exact (h.eq_of_le hij hi hj he).symm
  · exact h.eq_of_le hij hj hi he.symm

/-- The instruction at an address is the one that the address before announces. -/
theorem announced_of_le {i j : ℕ} {r s : InstructionRow Goldilocks} (hij : i ≤ j)
    (hr : rows[i]? = some r) (hs : rows[j]? = some s)
    (hnext : s.address.val = r.address.val + 1) : s.currentInstruction = r.nextInstruction := by
  induction j, hij using Nat.le_induction generalizing s with
  | base =>
    obtain rfl := Option.some.inj (hr.symm.trans hs)
    omega
  | succ j hij ih =>
    obtain ⟨q, hq⟩ := exists_row_of_le (Nat.le_succ j) hs
    have hfollows := h.follows j q s hq hs
    have hle := h.countsUp.val_mono hij hr hq
    have hstep := h.countsUp.val_step hq hs
    by_cases he : s.address = q.address
    · obtain rfl := hfollows.repeated he
      exact ih hq hnext
    · -- the address changes here, so row `j` still has that of row `i`
      have hne : s.address.val ≠ q.address.val := fun hv => he (Goldilocks.ext hv)
      have hqr : r.address = q.address := Goldilocks.ext (by omega)
      obtain rfl := h.eq_of_le hij hr hq hqr
      exact hfollows.announced he

theorem announced {r s : InstructionRow Goldilocks} (hr : r ∈ rows) (hs : s ∈ rows)
    (hnext : s.address.val = r.address.val + 1) : s.currentInstruction = r.nextInstruction := by
  obtain ⟨i, hi⟩ := List.mem_iff_getElem?.mp hr
  obtain ⟨j, hj⟩ := List.mem_iff_getElem?.mp hs
  rcases Nat.le_total i j with hij | hji
  · exact h.announced_of_le hij hi hj hnext
  · have hle := h.countsUp.val_mono hji hj hi
    omega

end Ordered

/-- The rows go in ascending order through the addresses from zero to `last`. Those of one address
are all the same, and each announces the instruction at the next address. -/
structure Tabulates (rows : List (InstructionRow Goldilocks)) (last : Goldilocks) : Prop where
  ascending : rows.Pairwise fun r s => r.address.val ≤ s.address.val
  addresses : ∀ a : Goldilocks, (∃ r ∈ rows, r.address = a) ↔ a.val ≤ last.val
  identical : ∀ r ∈ rows, ∀ s ∈ rows, r.address = s.address → r = s
  announces : ∀ r ∈ rows, ∀ s ∈ rows, s.address.val = r.address.val + 1 →
    s.currentInstruction = r.nextInstruction

theorem Ordered.tabulates {rows : List (InstructionRow Goldilocks)} (h : Ordered rows)
    {q : InstructionRow Goldilocks} (hq : rows.getLast? = some q) : Tabulates rows q.address := by
  refine ⟨h.countsUp.pairwise_val, h.countsUp.exists_iff hq, ?_, ?_⟩
  · intro r hr s hs he
    exact h.eq_of_address hr hs he
  · intro r hr s hs hnext
    exact h.announced hr hs hnext

end InstructionRow

theorem Trace.fetches_of_lookups_eq {t : Trace} {rows : List (InstructionRow Goldilocks)}
    (hrows : InstructionRow.Ordered rows) (hsame : t.lookups = InstructionRow.lookups rows)
    {r : Register Goldilocks} (hr : r ∈ t) (hactive : r.currentInstruction ≠ 0)
    (q : InstructionRow Goldilocks) :
    q ∈ rows ∧ q.address = r.instructionPointer ↔
      q = ⟨r.instructionPointer, r.currentInstruction, r.nextInstruction⟩ := by
  obtain ⟨n, hn⟩ := List.mem_iff_getElem?.mp hr
  have hmem : r.lookup ∈ InstructionRow.lookups rows :=
    hsame ▸ mem_lookups.mpr ⟨n, r, hn, hactive, rfl⟩
  obtain ⟨p, hp, hlookup⟩ := InstructionRow.exists_row_of_mem_lookups hmem
  obtain rfl : p = ⟨r.instructionPointer, r.currentInstruction, r.nextInstruction⟩ := by
    cases p
    simpa [InstructionRow.lookup, Register.lookup] using hlookup
  constructor
  · rintro ⟨hq, he⟩
    exact hrows.eq_of_address hq hp he
  · rintro rfl
    exact ⟨hp, rfl⟩

/-- Let the instruction constraints accept a matrix that is not longer than the field. Then it is a
table of the instructions at the addresses from zero on, and every trace with the same lookups shows
in each row with an instruction the one row that the table has at its address. -/
theorem instruction_lookup_sound {rows : List (InstructionRow Goldilocks)}
    (hrows : Kind.instruction.Accepts (rows.map InstructionRow.toList))
    (hshort : rows.length < Goldilocks.modulus) :
    (∃ last, InstructionRow.Tabulates rows last) ∧
      ∀ t : Trace, t.lookups = InstructionRow.lookups rows →
        ∀ r ∈ t, r.currentInstruction ≠ 0 → ∀ q : InstructionRow Goldilocks,
          q ∈ rows ∧ q.address = r.instructionPointer ↔
            q = ⟨r.instructionPointer, r.currentInstruction, r.nextInstruction⟩ := by
  have hordered := InstructionRow.Ordered.of_accepts hrows hshort
  constructor
  · obtain ⟨row, hrow, -⟩ := hrows.boundary
    have hne : rows ≠ [] := by
      rintro rfl
      cases hrow
    exact ⟨_, hordered.tabulates (List.getLast?_eq_some_getLast hne)⟩
  · intro t hsame r hr hactive
    exact Trace.fetches_of_lookups_eq hordered hsame hr hactive

def plusMinusRows : List (InstructionRow Goldilocks) :=
  [⟨0, Instruction.increment.code, Instruction.decrement.code⟩,
    ⟨0, Instruction.increment.code, Instruction.decrement.code⟩,
    ⟨1, Instruction.decrement.code, 0⟩,
    ⟨1, Instruction.decrement.code, 0⟩]

/-- Rows that show these executions in the other order and nothing that a machine would do. -/
def minusPlus : Trace :=
  [⟨0, 1, Instruction.decrement.code, 0, 0, 0, 0⟩,
    ⟨0, 0, 0, 1, 0, 0, 0⟩,
    ⟨0, 0, Instruction.increment.code, Instruction.decrement.code, 0, 1, 0⟩]

theorem plusMinusRows_tabulates :
    Kind.instruction.Accepts (plusMinusRows.map InstructionRow.toList) ∧
      (∃ last, InstructionRow.Tabulates plusMinusRows last) ∧
      minusPlus.lookups = InstructionRow.lookups plusMinusRows ∧
      ∀ q : InstructionRow Goldilocks, q ∈ plusMinusRows ∧ q.address = 1 ↔
        q = ⟨1, Instruction.decrement.code, 0⟩ := by
  have haccepts : Kind.instruction.Accepts (plusMinusRows.map InstructionRow.toList) := by
    refine (InstructionRow.layout.accepts_iff plusMinusRows).mpr ⟨?_, _, rfl, ?_⟩
    · simp [plusMinusRows, InstructionRow.layout, InstructionRow.transition]
    · simp [InstructionRow.layout, InstructionRow.boundary]
  have hsame : minusPlus.lookups = InstructionRow.lookups plusMinusRows := by decide
  obtain ⟨htabulates, hfetches⟩ := instruction_lookup_sound haccepts (by decide)
  refine ⟨haccepts, htabulates, hsame, ?_⟩
  exact hfetches minusPlus hsame _ List.mem_cons_self (by decide)

end TapeAir
