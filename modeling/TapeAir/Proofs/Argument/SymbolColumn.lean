import TapeAir.Proofs.Argument.Uniqueness
import TapeAir.Proofs.Table.Symbols
/-! # The column of an evaluation

Put any elements of the extension behind the symbols of a padded table. The boundary constraint and
the transition constraint leave one column: each row shows the evaluation of the symbols up to its
own. In its last row the terminal constraint carries a terminal over the padding and so accepts the
evaluation of the symbols. It accepts no other value, unless it carries all values to zero.
-/
namespace TapeAir

namespace Row
variable {σ τ ρ : Type} {extended : σ → ρ → ExtendedRow} {next : σ → ρ → σ}
  {extended' : τ → ρ → ExtendedRow} {next' : τ → ρ → τ}

/-- A part of the state that the rows can do with is carried by itself. -/
theorem carried_part (part : σ → τ) (hrow : ∀ s r, extended s r = extended' (part s) r)
    (hnext : ∀ s r, part (next s r) = next' (part s) r) (s : σ) (rows : List ρ) :
    carried extended next s rows = carried extended' next' (part s) rows := by
  induction rows generalizing s with
  | nil => rfl
  | cons r rows ih => rw [carried, carried, hrow, ih, hnext]

end Row

namespace Extension
variable (point : Cubic)

def evaluationNext (e : Cubic) (x : Goldilocks) : Cubic := e * point + .lift x

theorem foldl_evaluationNext (xs : List Goldilocks) :
    xs.foldl (evaluationNext point) 0 = evaluation point (xs.map Cubic.lift) := by
  rw [evaluation, List.foldl_map]
  rfl

end Extension

def Kind.evaluationTerminal : (k : Kind) → k.Terminals → Cubic
  | .input, (t : Evaluations) => t.input
  | .output, (t : Evaluations) => t.output
  | _, _ => 0

namespace Kind.HoldsSymbols
variable {k : Kind} (hk : k.HoldsSymbols)

def full (x : Goldilocks) (e : Cubic) : k.FullRow :=
  ⟨[x], [e], by rcases hk with rfl | rfl <;> rfl, by rcases hk with rfl | rfl <;> rfl⟩

theorem full_injective (x : Goldilocks) : Function.Injective fun e => (hk.full x e).cells :=
  fun _ _ h => List.head_eq_of_cons_eq (List.append_cancel_left h)

theorem carried_symbolRow (point : Cubic) (length : ℤ) (xs : List Goldilocks) :
    Row.carried (Extension.symbolRow point length) (Extension.symbolNext point length) {} xs =
      Row.carried (fun e x => (hk.full x (Extension.evaluationNext point e x)).cells)
        (Extension.evaluationNext point) 0 xs := by
  refine Row.carried_part Extension.SymbolState.evaluation ?_ ?_ _ xs
  · intro s x
    rfl
  · intro s x
    rfl

theorem vanishesAt_boundary (point : Cubic) (x : Goldilocks) (e : Cubic) :
    VanishesAt k.boundary 0 (hk.full x e).cells ↔ e = Extension.evaluationNext point 0 x := by
  rw [Kind.FullRow.vanishesAt_boundary, Extension.evaluationNext, zero_mul, zero_add]
  rcases hk with rfl | rfl <;> exact Option.some_inj.trans sub_eq_zero

theorem vanishesAt_transition (ch : Challenges) (x y : Goldilocks) (e next : Cubic) :
    VanishesAt (k.transition ch) 0 ((hk.full x e).cells ++ (hk.full y next).cells) ↔
      next = Extension.evaluationNext (k.evaluationPoint ch) e y := by
  rw [Kind.FullRow.vanishesAt_transition]
  rcases hk with rfl | rfl <;> exact Option.some_inj.trans (sub_eq_zero.trans eq_comm)

theorem vanishesAt_terminal (ch : Challenges) (padding : ℕ) (terminals : k.Terminals)
    (x : Goldilocks) (e : Cubic) :
    VanishesAt (k.terminal ch padding terminals) 0 (hk.full x e).cells ↔
      k.evaluationTerminal terminals * k.evaluationPoint ch ^ padding = e := by
  rw [Kind.FullRow.vanishesAt_terminal]
  rcases hk with rfl | rfl <;> exact Option.some_inj.trans (sub_eq_zero.trans eq_comm)

include hk in
theorem evaluationTerminal_own {s : k.Summary} {x : Cubic}
    (h : k.summaryParts s = [("evaluation_terminal", x)]) :
    k.evaluationTerminal (k.ownTerminals s) = x := by
  rcases hk with rfl | rfl
  · exact (Prod.mk.inj (List.cons.inj h).1).2
  · exact (Prod.mk.inj (List.cons.inj h).1).2

/-- Boundary and transition constraint together leave only the column of evaluations. -/
theorem vanishes_iff_displays (ch : Challenges) {rows : List (Goldilocks × Cubic)}
    (hne : rows ≠ []) :
    VanishesOnFirst k.boundary 0 (withColumns hk.full rows) ∧
        VanishesOnPairs (k.transition ch) 0 (withColumns hk.full rows) ↔
      Displays Prod.fst Prod.snd (Extension.evaluationNext (k.evaluationPoint ch)) (fun _ e => e)
        0 rows := by
  have hfirst : VanishesOnFirst k.boundary 0 (withColumns hk.full rows) ↔
      ∀ a ∈ rows.head?, a.2 = Extension.evaluationNext (k.evaluationPoint ch) 0 a.1 := by
    obtain ⟨a, rest, rfl⟩ := List.exists_cons_of_ne_nil hne
    simp [VanishesOnFirst, withColumns, hk.vanishesAt_boundary (k.evaluationPoint ch)]
  have hpairs (h : ∀ a ∈ rows.head?, a.2 = Extension.evaluationNext (k.evaluationPoint ch) 0 a.1) :
      VanishesOnPairs (k.transition ch) 0 (withColumns hk.full rows) ↔
        Displays Prod.fst Prod.snd (Extension.evaluationNext (k.evaluationPoint ch)) (fun _ e => e)
          0 rows := by
    refine vanishesOnPairs_iff_displays h (List.isChain_iff_getElem.mpr fun i hi => ?_)
    exact hk.vanishesAt_transition ch _ _ _ _
  rw [hfirst]
  exact ⟨fun h => (hpairs h.1).mp h.2, fun h => ⟨h.first, (hpairs h.first).mpr h⟩⟩

end Kind.HoldsSymbols

/-- A terminal is accepted behind a column with padding if carrying it over the padding gives the
evaluation carried there. -/
theorem Kind.HoldsSymbols.vanishesOnLast_iff {k : Kind} (hk : k.HoldsSymbols)
    {symbols : List Goldilocks} (hne : symbols ≠ []) (length : ℤ) (padding : ℕ) (ch : Challenges)
    (terminals : k.Terminals) :
    VanishesOnLast (k.terminal ch padding terminals) 0
        (Row.carried (Extension.symbolRow (k.evaluationPoint ch) length)
          (Extension.symbolNext (k.evaluationPoint ch) length) {}
          (symbols ++ List.replicate padding 0)) ↔
      k.evaluationTerminal terminals * k.evaluationPoint ch ^ padding =
        evaluation (k.evaluationPoint ch) (symbols.map Cubic.lift) *
          k.evaluationPoint ch ^ padding := by
  have hzeros : (symbols ++ List.replicate padding 0).map Cubic.lift =
      symbols.map Cubic.lift ++ List.replicate padding 0 := by
    rw [List.map_append, List.map_replicate]
    rfl
  rw [← evaluation_append_zeros, ← hzeros, ← Extension.foldl_evaluationNext,
    hk.carried_symbolRow]
  refine vanishesOnLast_carried (List.append_ne_nil_of_left_ne_nil hne _) id ?_ 0
  intro e x _
  exact hk.vanishesAt_terminal ch padding terminals x _

namespace Table

section Symbols
variable {k : Kind} (hk : k.HoldsSymbols)
include hk

/-- A table that holds its symbols is padded with zeros, and then extends. -/
theorem exists_pad_extend {t : Table k} {symbols : List Goldilocks}
    (hlength : t.length = symbols.length) (h : t.matrix = symbols.map ([·])) (ch : Challenges)
    (initial : Permutations) :
    ∃ p p', t.pad = .ok p ∧ p.extend ch initial = .ok p' ∧
      p.matrix = (symbols ++ List.replicate p'.paddingCount 0).map ([·]) ∧
      p'.paddingCount = nextPowerOfTwo symbols.length - symbols.length ∧
      p'.extendedMatrix = Row.carried (Extension.symbolRow (k.evaluationPoint ch) t.length)
        (Extension.symbolNext (k.evaluationPoint ch) t.length) {}
        (symbols ++ List.replicate p'.paddingCount 0) ∧
      p'.Compresses (k.evaluationPoint ch) symbols := by
  let n := nextPowerOfTwo symbols.length - symbols.length
  let p : Table k := { t with matrix := (symbols ++ List.replicate n 0).map ([·]) }
  have hcount : p.length = symbols.length := hlength
  have hheight : p.height = symbols.length + n := by
    rw [height, outline, Outline.height, hcount]
    exact (Nat.add_sub_of_le (le_nextPowerOfTwo symbols.length)).symm
  obtain ⟨p', hp', hcompresses⟩ := exists_extend_compresses hk hcount hheight rfl ch initial
  obtain ⟨_, hextends, -, hextended, -⟩ := extend_symbols hk (show p.matrix = _ from rfl) ch initial
  obtain rfl := Except.ok.inj (hp'.symm.trans hextends)
  have hpadding : p'.paddingCount = n := by
    have hrows := hcompresses.height
    have hlast := hcompresses.padding
    rw [hextended, Row.length_carried, List.length_append, List.length_replicate] at hrows
    rw [hcompresses.length] at hlast
    omega
  exact ⟨p, p', pad_symbols hk h, hp', hpadding ▸ rfl, hpadding, hpadding ▸ hextended, hcompresses⟩

/-- A column of symbols, padded with zeros, satisfies the boundary and the transition constraint
with one column behind it, that of an extension: each row shows the evaluation of the symbols up to
its own. Its last row accepts the stored terminal. If the point is not zero, or if nothing is
padded, it accepts the evaluation of the symbols alone. -/
theorem symbol_column_unique {t : Table k} {symbols : List Goldilocks} (hne : symbols ≠ [])
    (hlength : t.length = symbols.length) (h : t.matrix = symbols.map ([·])) (ch : Challenges)
    (initial : Permutations) :
    ∃ p p', t.pad = .ok p ∧ p.extend ch initial = .ok p' ∧
      (∀ rows : List (Goldilocks × Cubic), p.matrix = (rows.map Prod.fst).map ([·]) →
        (VanishesOnFirst k.boundary 0 (withColumns hk.full rows) ∧
            VanishesOnPairs (k.transition ch) 0 (withColumns hk.full rows) ↔
          p'.extendedMatrix = withColumns hk.full rows) ∧
        (p'.extendedMatrix = withColumns hk.full rows ↔
          ∀ (i : ℕ) (a : Goldilocks × Cubic), rows[i]? = some a →
            a.2 = evaluation (k.evaluationPoint ch)
              (((rows.take (i + 1)).map Prod.fst).map Cubic.lift))) ∧
      VanishesOnLast (k.terminal ch p'.paddingCount (k.ownTerminals p'.summary)) 0
        p'.extendedMatrix ∧
      (k.evaluationPoint ch ≠ 0 ∨ (∃ e, symbols.length = 2 ^ e) → ∀ terminals : k.Terminals,
        VanishesOnLast (k.terminal ch p'.paddingCount terminals) 0 p'.extendedMatrix ↔
          k.evaluationTerminal terminals =
            evaluation (k.evaluationPoint ch) (symbols.map Cubic.lift)) := by
  obtain ⟨p, p', hp, hp', hpadded, hpadding, hextended, hcompresses⟩ :=
    exists_pad_extend hk hlength h ch initial
  have hlast (terminals : k.Terminals) :=
    hk.vanishesOnLast_iff hne t.length p'.paddingCount ch terminals
  rw [← hextended] at hlast
  refine ⟨p, p', hp, hp', ?_, ?_, ?_⟩
  · intro rows hrows
    have hsymbols : symbols ++ List.replicate p'.paddingCount 0 = rows.map Prod.fst :=
      List.map_injective_iff.mpr List.singleton_injective (hpadded.symm.trans hrows)
    have hrowsne : rows ≠ [] := by
      rintro rfl
      exact List.append_ne_nil_of_left_ne_nil hne _ hsymbols
    have hmatrix : p'.extendedMatrix = withColumns hk.full rows ↔
        Displays Prod.fst Prod.snd (Extension.evaluationNext (k.evaluationPoint ch)) (fun _ e => e)
          0 rows := by
      rw [hextended, hsymbols, hk.carried_symbolRow, ← carried_eq_map_iff hk.full_injective]
      rfl
    refine ⟨(hk.vanishes_iff_displays ch hrowsne).trans hmatrix.symm, hmatrix.trans ?_⟩
    rw [displays_iff_foldl]
    refine forall₂_congr fun i a => imp_congr_right fun ha => ?_
    rw [List.take_add_one, ha, ← Extension.foldl_evaluationNext, Option.toList_some,
      List.map_append, List.foldl_append]
    rfl
  · rw [hlast, hk.evaluationTerminal_own hcompresses.terminal]
  · intro hbinds terminals
    have hpow : k.evaluationPoint ch ^ p'.paddingCount ≠ 0 := by
      rcases hbinds with hpoint | ⟨e, he⟩
      · exact pow_ne_zero _ hpoint
      · rw [hpadding, he, nextPowerOfTwo_two_pow, Nat.sub_self, pow_zero]
        exact one_ne_zero
    rw [hlast, mul_left_inj' hpow]

end Symbols

/-- At the point ten evaluations are read off in decimal digits. -/
def decimalChallenges : Challenges := { unitChallenges with delta := .lift (10 : ℕ) }

def digits : List (Goldilocks × Cubic) :=
  [(1, .lift (1 : ℕ)), ((2 : ℕ), .lift (12 : ℕ)), ((3 : ℕ), .lift (123 : ℕ)),
    (0, .lift (1230 : ℕ))]

def digitsTable : Table .output := ofRows .output (((digits.take 3).map Prod.fst).map ([·]))

theorem digits_column :
    ∃ p p', digitsTable.pad = .ok p ∧ p.extend decimalChallenges ⟨0, 0⟩ = .ok p' ∧
      p'.extendedMatrix = withColumns (Kind.HoldsSymbols.full (.inr rfl)) digits ∧
      VanishesOnFirst Kind.output.boundary 0 p'.extendedMatrix ∧
      VanishesOnPairs (Kind.output.transition decimalChallenges) 0 p'.extendedMatrix ∧
      ∀ terminals : Evaluations,
        VanishesOnLast (Kind.output.terminal decimalChallenges p'.paddingCount terminals) 0
          p'.extendedMatrix ↔ terminals.output = .lift (123 : ℕ) := by
  have hpad : digitsTable.pad =
      .ok { digitsTable with matrix := (digits.map Prod.fst).map ([·]) } := rfl
  obtain ⟨p, p', hp, hp', hcolumn, -, hlast⟩ := symbol_column_unique (t := digitsTable)
    (.inr rfl) (show (digits.take 3).map Prod.fst ≠ [] by decide) rfl rfl decimalChallenges ⟨0, 0⟩
  obtain rfl := Except.ok.inj (hp.symm.trans hpad)
  have hextend : Table.extend { digitsTable with matrix := (digits.map Prod.fst).map ([·]) }
      decimalChallenges ⟨0, 0⟩ =
      .ok { digitsTable with
        matrix := (digits.map Prod.fst).map ([·])
        extendedMatrix := withColumns (Kind.HoldsSymbols.full (.inr rfl)) digits
        summary := (.lift (123 : ℕ) : Cubic) } := rfl
  obtain rfl := Except.ok.inj (hp'.symm.trans hextend)
  obtain ⟨hfirst, hpairs⟩ := (hcolumn digits rfl).1.mpr rfl
  exact ⟨_, _, hpad, hextend, rfl, hfirst, hpairs, hlast (.inl (by decide))⟩

end Table

end TapeAir
