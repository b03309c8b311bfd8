import Mathlib.Order.Bounds.Defs
import TapeAir.Proofs.Field.PowerOfTwo
import TapeAir.Proofs.Field.Prime
import TapeAir.Proofs.Loop
import TapeAir.Proofs.Table.Passes
/-! # Padding reaches the height of a table

The height is the least power of two that holds the rows. Padding goes row by row until the number
of rows passes a test of its binary digits, and each row is made from the one before. So it stops at
the height, and the rows that it adds follow from the last one that was there.
-/
namespace TapeAir

theorem doubling_nextPowerOfTwo {n : ℕ} (h : n ≠ 0) :
    Loop (fun p => p < n) (fun p => some (2 * p)) 1 (nextPowerOfTwo n) := by
  obtain ⟨e, he⟩ := isPowerOfTwo_nextPowerOfTwo h
  rw [he]
  refine Loop.of_states (2 ^ ·) e ?_ ?_
  · intro i hi
    have hlt : 2 ^ i < 2 ^ e := Nat.pow_lt_pow_right (by decide) hi
    refine ⟨decide_eq_true ?_, congrArg some (Nat.pow_succ'.symm)⟩
    by_contra hle
    have := nextPowerOfTwo_le ⟨i, rfl⟩ (Nat.le_of_not_lt hle)
    omega
  · have := le_nextPowerOfTwo n
    exact decide_eq_false (by omega)

theorem isLeast_missing {n : ℕ} (h : n ≠ 0) :
    IsLeast {j | (n + j).isPowerOfTwo} (nextPowerOfTwo n - n) := by
  refine ⟨?_, ?_⟩
  · rw [Set.mem_ofPred_eq, Nat.add_sub_cancel' (le_nextPowerOfTwo n)]
    exact isPowerOfTwo_nextPowerOfTwo h
  · intro j hj
    exact Nat.sub_le_iff_le_add'.mpr (nextPowerOfTwo_le hj (Nat.le_add_right n j))

namespace Kind
variable {k : Kind} {last : Row}

/-- The test of the number of rows at which padding stops. The tables of symbols leave out that the
number is positive. -/
def fits : Kind → ℕ → Bool
  | .input, n | .output, n => n &&& (n - 1) == 0
  | _, n => isPowerOfTwo n

theorem fits_iff (k : Kind) (n : ℕ) : k.fits n ↔ n = 0 ∧ k.mayBeEmpty ∨ n.isPowerOfTwo := by
  cases k with
  | processor | instruction | memory => simp [fits, mayBeEmpty, isPowerOfTwo_iff]
  | input | output => simp [fits, mayBeEmpty, and_pred_eq_zero_iff]

def padOnce? (k : Kind) (rows : List Row) : Option (List Row) :=
  (k.fill? (rows.getLast?.getD []) 1).map fun row => rows ++ [row]

/-- The cells of the `j`-th row of padding. Memory and processor rows repeat the last row, but for
the cycle, which goes on, and an interweaved row or one without instructions. -/
def behind (k : Kind) (last : Row) (j : ℕ) : Row :=
  match k with
  | .processor => ((last.modify 0 (· + (j : Goldilocks))).set 2 0).set 3 0
  | .instruction => [last.headD 0 + (j : Goldilocks), 0, 0]
  | .memory => (last.modify 0 (· + (j : Goldilocks))).set 3 1
  | .input | .output => [0]

/-- What `fill?` gives behind a row of full width, and what this says of a row behind another. -/
structure Behind (k : Kind) (last : Row) : Prop where
  fill : ∀ j, k.fill? last j = some (k.behind last j)
  length : ∀ j, (k.behind last j).length = k.baseWidth
  add : ∀ i j, k.behind (k.behind last i) j = k.behind last (i + j)

theorem Behind.of_mayBeEmpty (h : k.mayBeEmpty) : k.Behind last := by
  cases k with
  | processor | instruction | memory => cases h
  | input | output => exact ⟨fun _ => rfl, fun _ => rfl, fun _ _ => rfl⟩

theorem Behind.of_length (h : last.length = k.baseWidth) : k.Behind last := by
  have hcycle (c : Goldilocks) (i j : ℕ) : c + i + j = c + (i + j : ℕ) := by
    rw [Nat.cast_add, add_assoc]
  cases k with
  | processor =>
    match last, h with
    | [_, _, _, _, _, _, _], _ => exact ⟨fun _ => rfl, fun _ => rfl, by simp [behind, hcycle]⟩
  | instruction =>
    match last, h with
    | [_, _, _], _ => exact ⟨fun _ => rfl, fun _ => rfl, by simp [behind, hcycle]⟩
  | memory =>
    match last, h with
    | [_, _, _, _], _ => exact ⟨fun _ => rfl, fun _ => rfl, by simp [behind, hcycle]⟩
  | input | output => exact .of_mayBeEmpty rfl

variable {rows : List Row}

/-- The last row of a matrix can be padded from, or there is none where none is needed. -/
theorem Behind.of_rows (hempty : rows = [] → k.mayBeEmpty)
    (hlast : ∀ last ∈ rows.getLast?, last.length = k.baseWidth) :
    k.Behind (rows.getLast?.getD []) := by
  cases h : rows.getLast? with
  | some last => exact .of_length (hlast last h)
  | none => exact .of_mayBeEmpty (hempty (List.getLast?_eq_none_iff.mp h))

def extraRows (k : Kind) (rows : List Row) (n : ℕ) : List Row :=
  (List.range n).map fun j => k.behind (rows.getLast?.getD []) (j + 1)

theorem length_extraRows (k : Kind) (rows : List Row) (n : ℕ) : (k.extraRows rows n).length = n := by
  rw [extraRows, List.length_map, List.length_range]

theorem extraRows_succ (k : Kind) (rows : List Row) (n : ℕ) :
    k.extraRows rows (n + 1) =
      k.extraRows rows n ++ [k.behind (rows.getLast?.getD []) (n + 1)] := by
  rw [extraRows, List.range_succ, List.map_append]
  rfl

theorem padding?_eq_extraRows (h : k.Behind (rows.getLast?.getD [])) :
    k.padding? rows = some (k.extraRows rows (nextPowerOfTwo rows.length - rows.length)) :=
  padding?_eq_of_fill? h.fill

/-- One more row of padding is made from the row that was made last. -/
theorem padOnce?_eq (h : k.Behind (rows.getLast?.getD [])) (n : ℕ) :
    k.padOnce? (rows ++ k.extraRows rows n) = some (rows ++ k.extraRows rows (n + 1)) := by
  have hfill : k.fill? ((rows ++ k.extraRows rows n).getLast?.getD []) 1 =
      some (k.behind (rows.getLast?.getD []) (n + 1)) := by
    -- only the first row of padding follows from a row that was there before
    cases n with
    | zero =>
      rw [extraRows, List.range_zero, List.map_nil, List.append_nil]
      exact h.fill 1
    | succ n =>
      rw [extraRows_succ, ← List.append_assoc, List.getLast?_concat, Option.getD_some,
        (Behind.of_length (h.length (n + 1))).fill, h.add]
  rw [padOnce?, hfill, extraRows_succ, Option.map_some, List.append_assoc]

theorem not_fits_of_lt {n j : ℕ} (h : j < nextPowerOfTwo n - n) : ¬k.fits (n + j) := by
  rw [fits_iff]
  rintro (⟨hzero, -⟩ | hpower)
  · obtain rfl : n = 0 := by omega
    cases h
  · have := nextPowerOfTwo_le hpower (Nat.le_add_right n j)
    omega

theorem fits_nextPowerOfTwo {n : ℕ} (h : n = 0 → k.mayBeEmpty) : k.fits (nextPowerOfTwo n) := by
  rw [fits_iff]
  by_cases hn : n = 0
  · exact .inl ⟨by rw [hn]; rfl, h hn⟩
  · exact .inr (isPowerOfTwo_nextPowerOfTwo hn)

theorem isLeast_fits {n : ℕ} (h : n = 0 → k.mayBeEmpty) :
    IsLeast {j | k.fits (n + j)} (nextPowerOfTwo n - n) := by
  refine ⟨?_, ?_⟩
  · rw [Set.mem_ofPred_eq, Nat.add_sub_cancel' (le_nextPowerOfTwo n)]
    exact fits_nextPowerOfTwo h
  · intro j hj
    exact Nat.le_of_not_lt fun hlt => not_fits_of_lt hlt hj

/-- Padding row by row stops at the next power of two. -/
theorem loop_extraRows (hempty : rows = [] → k.mayBeEmpty)
    (h : k.Behind (rows.getLast?.getD [])) :
    Loop (fun rows => !k.fits rows.length) k.padOnce? rows
      (rows ++ k.extraRows rows (nextPowerOfTwo rows.length - rows.length)) := by
  let state (i : ℕ) := rows ++ k.extraRows rows i
  have hlength (i : ℕ) : (state i).length = rows.length + i := by
    rw [List.length_append, length_extraRows]
  have hstart : state 0 = rows := List.append_nil rows
  have hloop : Loop (fun rows => !k.fits rows.length) k.padOnce? (state 0)
      (state (nextPowerOfTwo rows.length - rows.length)) := by
    refine Loop.of_states state _ ?_ ?_
    · intro i hi
      refine ⟨?_, padOnce?_eq h i⟩
      simpa [hlength] using not_fits_of_lt hi
    · rw [hlength, Nat.add_sub_cancel' (le_nextPowerOfTwo _)]
      simpa using fits_nextPowerOfTwo fun hn => hempty (List.length_eq_zero_iff.mp hn)
  rwa [hstart] at hloop

/-- Every row that is derived from a trace has the width of its table. -/
theorem length_of_derive {t : Trace} {program : Program} (h : k.derive t program = .ok rows) :
    ∀ row ∈ rows, row.length = k.baseWidth := by
  have hok {ρ : Type} {l : List ρ} {cells : ρ → Row} (hrows : k.derive t program = .ok (l.map cells))
      (hcells : ∀ r, (cells r).length = k.baseWidth) : ∀ row ∈ rows, row.length = k.baseWidth := by
    obtain rfl := Except.ok.inj (h.symm.trans hrows)
    exact List.forall_mem_map.mpr fun r _ => hcells r
  by_cases hk : k = .processor
  · subst hk
    exact hok (Trace.derive_processor t program) fun _ => rfl
  have hunpadded : t.Unpadded := by
    by_contra hpadded
    obtain ⟨i, hi⟩ := Trace.exists_firstEarlyIdle hpadded
    rw [hi.derive program hk] at h
    cases h
  cases k with
  | processor => exact absurd rfl hk
  | instruction => exact hok (Trace.derive_instruction hunpadded program) fun _ => rfl
  | memory => exact hok (Trace.derive_memory hunpadded program) fun _ => rfl
  | output => exact hok (Trace.derive_output hunpadded program) fun _ => rfl
  | input =>
    cases hsymbols : t.readSymbols? with
    | some symbols => exact hok (Trace.derive_input hunpadded hsymbols program) fun _ => rfl
    | none =>
      rw [hunpadded.derive_input_of_unseen hsymbols program] at h
      cases h

end Kind

namespace Table
variable {k : Kind} {t : Table k}

structure Pads (t p : Table k) : Prop where
  pad : t.pad = .ok p
  /-- The rows that are there stay, and the missing ones follow from the last of them. -/
  rows : p = { t with
    matrix := t.matrix ++
      k.extraRows t.matrix (nextPowerOfTwo t.matrix.length - t.matrix.length) }
  length : p.matrix.length = nextPowerOfTwo t.matrix.length
  least : t.matrix ≠ [] → IsLeast {j | (t.matrix.length + j).isPowerOfTwo}
    (nextPowerOfTwo t.matrix.length - t.matrix.length)
  empty : t.matrix = [] → p = t
  /-- The test of the table takes the same number for the least, also where it has no rows. -/
  least_fits : IsLeast {j | k.fits (t.matrix.length + j)}
    (nextPowerOfTwo t.matrix.length - t.matrix.length)
  /-- Rows are appended one by one until their number passes the test. -/
  loop : ∀ rows, Loop (fun rows => !k.fits rows.length) k.padOnce? t.matrix rows ↔ rows = p.matrix
  again : p.pad = .ok p

theorem pad_eq_self (hempty : t.matrix = [] → k.mayBeEmpty)
    (h : nextPowerOfTwo t.matrix.length = t.matrix.length) : t.pad = .ok t := by
  have hnone : k.padding? t.matrix = some [] := by
    rw [Kind.padding?, h, Nat.sub_self]
    rfl
  rw [pad_eq_append hempty hnone, List.append_nil]

theorem exists_pads (hempty : t.matrix = [] → k.mayBeEmpty)
    (hlast : ∀ last ∈ t.matrix.getLast?, last.length = k.baseWidth) : ∃ p, t.Pads p := by
  have hbehind := Kind.Behind.of_rows hempty hlast
  have hlength : (t.matrix ++ k.extraRows t.matrix
      (nextPowerOfTwo t.matrix.length - t.matrix.length)).length =
        nextPowerOfTwo t.matrix.length := by
    rw [List.length_append, Kind.length_extraRows, Nat.add_sub_cancel' (le_nextPowerOfTwo _)]
  have hloop := Kind.loop_extraRows hempty hbehind
  refine ⟨_, pad_eq_append hempty (Kind.padding?_eq_extraRows hbehind), rfl, hlength,
    ?_, ?_, ?_, ?_, ?_⟩
  · intro hne
    exact isLeast_missing (mt List.length_eq_zero_iff.mp hne)
  · intro hnil
    have hnone : k.extraRows t.matrix (nextPowerOfTwo t.matrix.length - t.matrix.length) = [] := by
      rw [hnil]
      rfl
    rw [hnone, List.append_nil]
  · exact Kind.isLeast_fits fun hn => hempty (List.length_eq_zero_iff.mp hn)
  · intro rows
    exact ⟨hloop.unique, fun heq => heq ▸ hloop⟩
  · refine pad_eq_self ?_ ?_
    · intro hnil
      exact hempty (List.append_eq_nil_iff.mp hnil).1
    · rw [hlength, nextPowerOfTwo_nextPowerOfTwo]

theorem mayBeEmpty_of_pad {p : Table k} (h : t.pad = .ok p) (hnil : t.matrix = []) :
    k.mayBeEmpty := by
  by_contra hmay
  rw [Table.pad, hnil, Bool.eq_false_iff.mpr hmay] at h
  cases h

theorem isPadded_iff : t.isPadded ↔
    t.matrix.length = t.height ∧ (t.matrix.length = 0 ∨ t.matrix.length.isPowerOfTwo) := by
  rw [isPadded, Outline.isPadded, ← isPowerOfTwo_iff]
  simp [height]

theorem isPadded_of_pad {p : Table k} (ht : t.length = t.matrix.length)
    (hlast : ∀ last ∈ t.matrix.getLast?, last.length = k.baseWidth) (h : t.pad = .ok p) :
    p.isPadded ∧ p.matrix.length = p.height := by
  obtain ⟨q, hq⟩ := exists_pads (mayBeEmpty_of_pad h) hlast
  obtain rfl := Except.ok.inj (h.symm.trans hq.pad)
  have hheight : p.height = nextPowerOfTwo t.matrix.length := by
    rw [← ht, hq.rows]
    rfl
  have hlength : p.matrix.length = p.height := hq.length.trans hheight.symm
  refine ⟨isPadded_iff.mpr ⟨hlength, ?_⟩, hlength⟩
  rw [hlength, hheight]
  by_cases hzero : t.matrix.length = 0
  · rw [hzero]
    exact .inl rfl
  · exact .inr (isPowerOfTwo_nextPowerOfTwo hzero)

/-- Padding reaches the height of a table and stops there. -/
theorem padding_reaches_height (k : Kind) :
    (∀ t : Table k, (t.matrix = [] → k.mayBeEmpty) →
      (∀ last ∈ t.matrix.getLast?, last.length = k.baseWidth) → ∃ p, t.Pads p) ∧
    (∀ n ≠ 0, Loop (fun p => p < n) (fun p => some (2 * p)) 1 (nextPowerOfTwo n)) ∧
    ∀ (trace : Trace) (program : Program) (d : Domain) (p : Table k),
      ofTrace k trace program d = .ok p → p.isPadded ∧ p.matrix.length = p.height := by
  refine ⟨fun t => exists_pads, fun n => doubling_nextPowerOfTwo, ?_⟩
  intro trace program d p h
  rw [ofTrace, derive] at h
  cases hrows : k.derive trace program with
  | error e =>
    rw [hrows] at h
    cases h
  | ok rows =>
    rw [hrows] at h
    let t : Table k := { empty k rows.length d with matrix := rows }
    refine isPadded_of_pad (t := t) rfl ?_ h
    intro last hlast
    exact Kind.length_of_derive hrows last (List.mem_of_getLast? hlast)

def threeAccesses : Table .memory :=
  { empty .memory 3 ⟨2, 1, 1⟩ with matrix := [[0, 0, 0, 0], [1, 0, 1, 0], [(2 : ℕ), 0, -1, 0]] }

theorem threeAccesses_padding :
    (∃ p, threeAccesses.Pads p ∧
        p.matrix = threeAccesses.matrix ++ [([(3 : ℕ), 0, -1, 1] : Row)]) ∧
      ∃ p, ofTrace .output [] #[] ⟨2, 1, 1⟩ = .ok p ∧ p.isPadded ∧ p.matrix.length = p.height := by
  obtain ⟨hpads, -, -⟩ := padding_reaches_height .memory
  obtain ⟨p, hp⟩ := hpads threeAccesses nofun (by decide)
  obtain ⟨-, -, hmade⟩ := padding_reaches_height .output
  refine ⟨⟨p, hp, ?_⟩, _, rfl, hmade [] #[] ⟨2, 1, 1⟩ _ rfl⟩
  rw [hp.rows]
  decide

end Table

end TapeAir
