import Mathlib.Data.Set.List
import TapeAir.Proofs.Argument.Derived
import TapeAir.Proofs.Table.Symbols
/-! # Padding disturbs no argument

No argument takes in a row of padding, each kind of table for a reason of its own: the processor
rows are idle, the memory rows interweaved, and the instruction rows repeat no address, whatever the
last row shows. The terminal of a symbol table is settled before its padding begins. So a table can
be padded before it is extended: the terminals stay, and the rows that were there are extended in
the same way.
-/
namespace TapeAir

namespace Row
variable {σ ρ : Type} (extended : σ → ρ → ExtendedRow) (next : σ → ρ → σ)

theorem take_carried_append (s : σ) (rows more : List ρ) :
    (carried extended next s (rows ++ more)).take rows.length = carried extended next s rows := by
  induction rows generalizing s with
  | nil => rfl
  | cons r rows ih => exact congrArg (extended s r :: ·) (ih (next s r))

/-- Rows of one length are the cells of a list of records, if one such row is those of a record. -/
theorem exists_map_eq {cells : ρ → Row} {n : ℕ}
    (h : ∀ row : Row, row.length = n → ∃ r, cells r = row) {rows : List Row}
    (hrows : ∀ row ∈ rows, row.length = n) : ∃ records : List ρ, records.map cells = rows := by
  change rows ∈ Set.range (List.map cells)
  rw [Set.range_list_map]
  intro row hrow
  exact h row (hrows row hrow)

end Row

theorem Register.exists_toList_eq (row : Row) (h : row.length = 7) :
    ∃ r : Register Goldilocks, r.toList = row := by
  match row, h with
  | [c, ip, ci, ni, mp, mv, mvi], _ => exact ⟨⟨c, ip, ci, ni, mp, mv, mvi⟩, rfl⟩

theorem InstructionRow.exists_toList_eq (row : Row) (h : row.length = 3) :
    ∃ r : InstructionRow Goldilocks, r.toList = row := by
  match row, h with
  | [a, ci, ni], _ => exact ⟨⟨a, ci, ni⟩, rfl⟩

theorem MemoryRow.exists_toList_eq (row : Row) (h : row.length = 4) :
    ∃ r : MemoryRow Goldilocks, r.toList = row := by
  match row, h with
  | [c, mp, mv, i], _ => exact ⟨⟨c, mp, mv, i⟩, rfl⟩

theorem Row.exists_singleton_eq (row : Row) (h : row.length = 1) : ∃ x : Goldilocks, [x] = row := by
  obtain ⟨x, rfl⟩ := List.length_eq_one_iff.mp h
  exact ⟨x, rfl⟩

namespace Table
variable {k : Kind}

/-- Both tables extend, to the same terminals, and the rows of the first are extended in the same
way in the second. -/
def ExtendAlike (t p : Table k) (ch : Challenges) (initial : Permutations) : Prop :=
  ∃ t' p', t.extend ch initial = .ok t' ∧ p.extend ch initial = .ok p' ∧ p'.summary = t'.summary ∧
    t'.extendedMatrix.length = t.matrix.length ∧
    p'.extendedMatrix.take t.matrix.length = t'.extendedMatrix

theorem ExtendAlike.of_carried {σ ρ : Type} {extended : σ → ρ → ExtendedRow} {next : σ → ρ → σ}
    {s : σ} {rows more : List ρ} {ch : Challenges} {initial : Permutations} {t p t' p' : Table k}
    (hlength : t.matrix.length = rows.length)
    (ht : t.extend ch initial = .ok t') (hp : p.extend ch initial = .ok p')
    (htrows : t'.extendedMatrix = Row.carried extended next s rows)
    (hprows : p'.extendedMatrix = Row.carried extended next s (rows ++ more))
    (hsummary : p'.summary = t'.summary) : t.ExtendAlike p ch initial := by
  refine ⟨t', p', ht, hp, hsummary, ?_, ?_⟩
  · rw [htrows, Row.length_carried, hlength]
  · rw [hprows, htrows, hlength, Row.take_carried_append]

theorem extendAlike_processor {t p : Table .processor} {rows more : Trace}
    (ht : t.matrix = rows.map Register.toList) (hp : p.matrix = (rows ++ more).map Register.toList)
    (hidle : ∀ r ∈ more, r.currentInstruction = 0) (ch : Challenges) (initial : Permutations) :
    t.ExtendAlike p ch initial := by
  obtain ⟨t', ht', htrows, htsummary⟩ := extend_processor ch initial ht
  obtain ⟨p', hp', hprows, hpsummary⟩ := extend_processor ch initial hp
  refine .of_carried (by rw [ht, List.length_map]) ht' hp' htrows hprows ?_
  rw [hpsummary, htsummary, Trace.accesses_append_idle hidle, Trace.lookups_append_idle hidle]

theorem extendAlike_memory {t p : Table .memory} {rows more : List (MemoryRow Goldilocks)}
    (ht : t.matrix = rows.map MemoryRow.toList) (hp : p.matrix = (rows ++ more).map MemoryRow.toList)
    (hnone : MemoryRow.accesses more = 0) (ch : Challenges) (initial : Permutations) :
    t.ExtendAlike p ch initial := by
  obtain ⟨t', ht', htrows, htsummary⟩ := extend_memory ch initial ht
  obtain ⟨p', hp', hprows, hpsummary⟩ := extend_memory ch initial hp
  refine .of_carried (by rw [ht, List.length_map]) ht' hp' htrows hprows ?_
  rw [hpsummary, htsummary, MemoryRow.accesses_append, hnone, add_zero]

theorem extendAlike_instruction {t p : Table .instruction}
    {rows more : List (InstructionRow Goldilocks)}
    (ht : t.matrix = rows.map InstructionRow.toList)
    (hp : p.matrix = (rows ++ more).map InstructionRow.toList)
    (hsame : InstructionRow.lookups (rows ++ more) = InstructionRow.lookups rows)
    (ch : Challenges) (initial : Permutations) : t.ExtendAlike p ch initial := by
  obtain ⟨t', ht', htrows, htsummary⟩ := extend_instruction ch initial ht
  obtain ⟨p', hp', hprows, hpsummary⟩ := extend_instruction ch initial hp
  refine .of_carried (by rw [ht, List.length_map]) ht' hp' htrows hprows ?_
  rw [hpsummary, htsummary, hsame]

theorem summary_eq_of_parts (hk : k.HoldsSymbols) {s s' : k.Summary}
    (h : k.summaryParts s = k.summaryParts s') : s = s' := by
  rcases hk with rfl | rfl <;> simpa [Kind.summaryParts] using h

theorem extendAlike_symbols (hk : k.HoldsSymbols) {t p : Table k} {xs more : List Goldilocks}
    (ht : t.matrix = xs.map ([·])) (hp : p.matrix = (xs ++ more).map ([·]))
    (hlength : t.length = xs.length) (hsame : p.length = t.length) (ch : Challenges)
    (initial : Permutations) : t.ExtendAlike p ch initial := by
  obtain ⟨t', ht', -, htrows, htsummary⟩ := extend_symbols hk ht ch initial
  obtain ⟨p', hp', -, hprows, hpsummary⟩ := extend_symbols hk hp ch initial
  rw [hsame] at hprows
  refine .of_carried (by rw [ht, List.length_map]) ht' hp' htrows hprows (summary_eq_of_parts hk ?_)
  rw [hpsummary, htsummary, hsame, hlength, Int.toNat_natCast, List.take_left, List.take_length]
  simp

/-- A table of records can be padded, and extends alike if each padding of its rows does. -/
theorem exists_pad_alike {ρ : Type} (f : k.Filling ρ) {t : Table k} {rows : List ρ}
    (hne : t.matrix ≠ []) (ht : t.matrix = rows.map f.cells)
    (halike : ∀ (r : ρ) (n : ℕ) (p : Table k), rows.getLast? = some r → p.length = t.length →
      p.matrix = (rows ++ f.extra r n).map f.cells → ∀ ch initial, t.ExtendAlike p ch initial) :
    ∃ p, t.pad = .ok p ∧ ∀ ch initial, t.ExtendAlike p ch initial := by
  have hrows : rows ≠ [] := by
    rintro rfl
    exact hne ht
  have hlast := List.getLast?_eq_some_getLast hrows
  exact ⟨_, f.pad_eq ht hlast, halike _ _ _ hlast rfl rfl⟩

theorem exists_pad_alike_symbols (hk : k.HoldsSymbols) {t : Table k} (hne : t.matrix ≠ [])
    (hlength : t.length = t.matrix.length) (hwidth : ∀ row ∈ t.matrix, row.length = 1) :
    ∃ p, t.pad = .ok p ∧ ∀ ch initial, t.ExtendAlike p ch initial := by
  obtain ⟨xs, hxs⟩ := Row.exists_map_eq Row.exists_singleton_eq hwidth
  refine exists_pad_alike hk.filling hne hxs.symm fun x n p _ hsame hp => ?_
  rw [← hxs, List.length_map] at hlength
  exact extendAlike_symbols hk hxs.symm hp hlength hsame

/-- A table extends to the same terminals before and after it is padded, and to the same rows as far
as it went. -/
theorem padding_extends_alike {t : Table k} (hne : t.matrix ≠ [])
    (hlength : t.length = t.matrix.length) (hwidth : ∀ row ∈ t.matrix, row.length = k.baseWidth) :
    ∃ p, t.pad = .ok p ∧ ∀ ch initial, t.ExtendAlike p ch initial := by
  cases k with
  | processor =>
    obtain ⟨rows, hrows⟩ := Row.exists_map_eq Register.exists_toList_eq hwidth
    refine exists_pad_alike Register.filling hne hrows.symm fun r n p _ _ hp => ?_
    exact extendAlike_processor hrows.symm hp (Register.idle_filling r n)
  | instruction =>
    obtain ⟨rows, hrows⟩ := Row.exists_map_eq InstructionRow.exists_toList_eq hwidth
    refine exists_pad_alike InstructionRow.filling hne hrows.symm fun r n p hlast _ hp => ?_
    have hsame := InstructionRow.lookups_append hlast (InstructionRow.isChain_filling r n)
    exact extendAlike_instruction hrows.symm hp hsame
  | memory =>
    obtain ⟨rows, hrows⟩ := Row.exists_map_eq MemoryRow.exists_toList_eq hwidth
    refine exists_pad_alike MemoryRow.filling hne hrows.symm fun r n p _ _ hp => ?_
    exact extendAlike_memory hrows.symm hp (MemoryRow.accesses_repeats r n)
  | input => exact exists_pad_alike_symbols (.inl rfl) hne hlength hwidth
  | output => exact exists_pad_alike_symbols (.inr rfl) hne hlength hwidth

def greatest : Table .instruction := ofRows .instruction [[0, 1, 0], [0, 1, 0], [-1, 1, 0]]

/-- The row of padding is at address zero again. -/
theorem greatest_extends_alike :
    ∃ p, greatest.pad = .ok p ∧ p.matrix = greatest.matrix ++ [([0, 0, 0] : Row)] ∧
      ∀ ch initial, greatest.ExtendAlike p ch initial := by
  obtain ⟨p, hp, halike⟩ := padding_extends_alike (t := greatest) nofun rfl (by decide)
  have hpadded : greatest.pad =
      .ok { greatest with matrix := greatest.matrix ++ [([0, 0, 0] : Row)] } := by
    cbv
  obtain rfl := Except.ok.inj (hp.symm.trans hpadded)
  exact ⟨_, hp, rfl, halike⟩

end Table

end TapeAir
