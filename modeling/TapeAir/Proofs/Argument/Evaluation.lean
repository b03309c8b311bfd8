import TapeAir.Proofs.Argument.Terminal
import TapeAir.Constraint.Evaluation
/-! # Evaluations

Extending a symbol table carries an evaluation from row to row. It stores the evaluation behind the
row at which the table's length ends, and the last row shows the evaluation of the whole column. A
zero behind the symbols multiplies the evaluation by the point once more.
-/
namespace TapeAir

section Evaluation
variable (point : Cubic)

theorem evaluation_concat (xs : List Cubic) (x : Cubic) :
    evaluation point (xs ++ [x]) = evaluation point xs * point + x := by
  rw [evaluation, List.foldl_append]
  rfl

theorem evaluation_append_zeros (xs : List Cubic) (n : ℕ) :
    evaluation point (xs ++ List.replicate n 0) = evaluation point xs * point ^ n := by
  induction n with
  | zero => rw [List.replicate_zero, List.append_nil, pow_zero, mul_one]
  | succ n ih =>
    rw [List.replicate_succ', ← List.append_assoc, evaluation_concat, ih, add_zero, pow_succ,
      mul_assoc]

end Evaluation

namespace Extension
variable (point : Cubic) (length : ℤ)

def symbolNext (s : SymbolState) (x : Goldilocks) : SymbolState :=
  let e := s.evaluation * point + .lift x
  ⟨s.row + 1, e, if (s.row : ℤ) = length - 1 then e else s.terminal⟩

def symbolRow (s : SymbolState) (x : Goldilocks) : ExtendedRow :=
  [.lift x, (symbolNext point length s x).evaluation]

theorem symbol?_eq (s : SymbolState) (x : Goldilocks) :
    symbol? point length s [x] =
      some (symbolRow point length s x, symbolNext point length s x) := rfl

/-- Behind a column the state counts its rows, holds its evaluation, and the evaluation of as many
symbols as the length says, once there are so many. -/
theorem foldl_symbolNext (xs : List Goldilocks) :
    xs.foldl (symbolNext point length) {} =
      ⟨xs.length, evaluation point (xs.map Cubic.lift),
        if 0 < length ∧ length ≤ xs.length then
          evaluation point ((xs.take length.toNat).map Cubic.lift) else 0⟩ := by
  induction xs using List.reverseRecOn with
  | nil =>
    rw [if_neg]
    · rfl
    · rintro ⟨hpos, hle⟩
      exact absurd hle (not_le.mpr hpos)
  | append_singleton xs x ih =>
    have hlength : (xs ++ [x]).length = xs.length + 1 := by simp
    rw [List.foldl_append, ih, List.foldl_cons, List.foldl_nil, symbolNext, hlength,
      List.map_append, List.map_singleton, evaluation_concat]
    simp only [SymbolState.mk.injEq, true_and]
    rcases lt_trichotomy (xs.length + 1 : ℤ) length with hlt | heq | hgt
    · rw [if_neg (by omega), if_neg (by omega), if_neg (by push_cast; omega)]
    · rw [if_pos (by omega), if_pos (by push_cast; omega), List.take_of_length_le (by omega),
        List.map_append, List.map_singleton, evaluation_concat]
    · rw [if_neg (by omega), List.take_append_of_le_length (by omega)]
      exact if_congr (and_congr_right fun _ => by push_cast; omega) rfl rfl

theorem symbols?_eq (xs : List Goldilocks) :
    symbols? point length (xs.map ([·])) =
      some (Row.carried (symbolRow point length) (symbolNext point length) {} xs,
        if 0 < length ∧ length ≤ xs.length then
          evaluation point ((xs.take length.toNat).map Cubic.lift) else 0) := by
  rw [symbols?, Row.carry?_eq_carried (symbol?_eq point length), foldl_symbolNext]
  rfl

theorem exists_last_symbolRow {xs : List Goldilocks} (hne : xs ≠ []) :
    ∃ row ∈ (Row.carried (symbolRow point length) (symbolNext point length) {} xs).getLast?,
      row[1]? = some (evaluation point (xs.map Cubic.lift)) := by
  obtain ⟨init, x, rfl⟩ := (List.eq_nil_or_concat' xs).resolve_left hne
  rw [Row.carried_concat]
  refine ⟨_, List.getLast?_concat, ?_⟩
  have hlast := foldl_symbolNext point length (init ++ [x])
  rw [List.foldl_append] at hlast
  exact congrArg (fun s : SymbolState => some s.evaluation) hlast

end Extension

def Kind.HoldsSymbols (k : Kind) : Prop := k = .input ∨ k = .output

/-- After an extension a symbol table has the evaluation of its symbols as terminal. Its last row
shows that terminal, multiplied by the point once for each row of padding. -/
structure Table.Compresses {k : Kind} (t : Table k) (point : Cubic) (symbols : List Goldilocks) :
    Prop where
  terminal : k.summaryParts t.summary =
    [("evaluation_terminal", evaluation point (symbols.map Cubic.lift))]
  length : t.length = symbols.length
  height : t.extendedMatrix.length = t.height
  padding : (t.height : ℤ) = t.length + t.paddingCount
  last : symbols ≠ [] → ∃ row ∈ t.extendedMatrix.getLast?,
    row[1]? = some (evaluation point (symbols.map Cubic.lift) * point ^ t.paddingCount)

namespace Table
variable {k : Kind} (hk : k.HoldsSymbols)
include hk

theorem extend_symbols {t : Table k} {xs : List Goldilocks} (h : t.matrix = xs.map ([·]))
    (ch : Challenges) (initial : Permutations) :
    ∃ t', t.extend ch initial = .ok t' ∧ t'.length = t.length ∧
      t'.extendedMatrix = Row.carried (Extension.symbolRow (k.evaluationPoint ch) t.length)
        (Extension.symbolNext (k.evaluationPoint ch) t.length) {} xs ∧
      k.summaryParts t'.summary = [("evaluation_terminal",
        if 0 < t.length ∧ t.length ≤ xs.length then
          evaluation (k.evaluationPoint ch) ((xs.take t.length.toNat).map Cubic.lift) else 0)] := by
  have hsymbols := Extension.symbols?_eq (k.evaluationPoint ch) t.length xs
  rcases hk with rfl | rfl
  all_goals
    refine ⟨_, by rw [extend, Kind.extend?, h, hsymbols], ?_⟩
    exact ⟨rfl, rfl, rfl⟩

theorem exists_extend_compresses {t : Table k} {symbols : List Goldilocks} {n : ℕ}
    (hlength : t.length = symbols.length) (hheight : t.height = symbols.length + n)
    (hmatrix : t.matrix = (symbols ++ List.replicate n 0).map ([·]))
    (ch : Challenges) (initial : Permutations) :
    ∃ t', t.extend ch initial = .ok t' ∧ t'.Compresses (k.evaluationPoint ch) symbols := by
  obtain ⟨t', ht', hlength', hextended, hsummary⟩ := extend_symbols hk hmatrix ch initial
  have hheight' : t'.height = symbols.length + n := by
    rw [← hheight, height, height, outline, outline, Outline.height, Outline.height]
    exact congrArg _ hlength'
  have hpadding : t'.paddingCount = n := by
    rw [paddingCount, hheight', hlength', hlength]
    omega
  refine ⟨t', ht', ?_, hlength'.trans hlength, ?_, ?_, ?_⟩
  · have hterminal : (if 0 < t.length ∧ t.length ≤ (symbols ++ List.replicate n 0).length then
        evaluation (k.evaluationPoint ch)
          (((symbols ++ List.replicate n 0).take t.length.toNat).map Cubic.lift) else 0) =
        evaluation (k.evaluationPoint ch) (symbols.map Cubic.lift) := by
      rw [hlength, Int.toNat_natCast, List.take_left]
      cases symbols with
      | nil => rfl
      | cons x xs =>
        refine if_pos ⟨?_, ?_⟩
        · exact Int.natCast_pos.mpr (Nat.succ_pos _)
        · rw [List.length_append]
          exact_mod_cast Nat.le_add_right _ _
    rw [hsummary, hterminal]
  · rw [hextended, Row.length_carried, hheight', List.length_append, List.length_replicate]
  · rw [hpadding, hheight', hlength', hlength]
    push_cast
    rfl
  · intro hne
    have hzeros : (symbols ++ List.replicate n 0).map Cubic.lift =
        symbols.map Cubic.lift ++ List.replicate n 0 := by
      rw [List.map_append, List.map_replicate]
      rfl
    have hlast := Extension.exists_last_symbolRow (k.evaluationPoint ch) t.length
      (List.append_ne_nil_of_left_ne_nil hne (List.replicate n 0))
    rwa [hzeros, evaluation_append_zeros, ← hextended, ← hpadding] at hlast

end Table

end TapeAir
