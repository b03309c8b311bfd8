import Mathlib.Data.List.Chain
import TapeAir.Table.Basic
/-! # Tables made from a trace

Padding appends rows that follow from the last row of a matrix. So a table made from a trace holds
the derived rows, and behind them some of these.
-/
namespace TapeAir

theorem Kind.padding?_eq_of_fill? {k : Kind} {rows : List Row} {fill : ℕ → Row}
    (h : ∀ j, k.fill? (rows.getLast?.getD []) j = some (fill j)) :
    k.padding? rows = some ((List.range (nextPowerOfTwo rows.length - rows.length)).map
      fun j => fill (j + 1)) := by
  have hfill (j : ℕ) : k.fill? (rows.getLast?.getD []) (j + 1) = pure (fill (j + 1)) := h (j + 1)
  simp only [padding?, hfill, List.mapM_pure]
  rfl

/-- Padding appends rows, and refuses an empty matrix only of the tables that may not be empty. -/
theorem Table.pad_eq_append {k : Kind} {t : Table k} {more : List Row}
    (hempty : t.matrix = [] → k.mayBeEmpty) (h : k.padding? t.matrix = some more) :
    t.pad = .ok { t with matrix := t.matrix ++ more } := by
  have hallowed : (t.matrix.isEmpty && !k.mayBeEmpty) = false := by
    by_cases hnil : t.matrix = []
    · simp [hempty hnil]
    · simp [hnil]
  rw [Table.pad, hallowed, h]
  rfl

structure Kind.Filling (k : Kind) (ρ : Type) where
  cells : ρ → Row
  fill : ρ → ℕ → ρ
  fill_eq : ∀ r j, k.fill? (cells r) j = some (cells (fill r j))

namespace Kind.Filling
variable {k : Kind} {ρ : Type} (f : k.Filling ρ)

def extra (r : ρ) (n : ℕ) : List ρ := (List.range n).map fun j => f.fill r (j + 1)

def padded (rows : List ρ) : List ρ :=
  match rows.getLast? with
  | some r => rows ++ f.extra r (nextPowerOfTwo rows.length - rows.length)
  | none => rows

theorem exists_padded_eq {rows : List ρ} (hne : rows ≠ []) :
    ∃ r n, rows.getLast? = some r ∧ f.padded rows = rows ++ f.extra r n := by
  have hlast := List.getLast?_eq_some_getLast hne
  exact ⟨_, _, hlast, by rw [padded, hlast]⟩

theorem isChain_extra {R : ρ → ρ → Prop} {r : ρ} (hfirst : R r (f.fill r 1))
    (hnext : ∀ j, R (f.fill r (j + 1)) (f.fill r (j + 2))) (n : ℕ) :
    (r :: f.extra r n).IsChain R := by
  rw [List.isChain_iff_getElem]
  intro i hi
  cases i with
  | zero => simpa [extra] using hfirst
  | succ i => simpa [extra] using hnext i

/-- A matrix is related row by row through its padding, if it is so itself and in its padding. -/
theorem isChain_append_extra {R : ρ → ρ → Prop} {rows : List ρ} {r : ρ}
    (h : rows.getLast? = some r) (n : ℕ) :
    (rows ++ f.extra r n).IsChain R ↔ rows.IsChain R ∧ (r :: f.extra r n).IsChain R := by
  obtain ⟨init, rfl⟩ := List.getLast?_eq_some_iff.mp h
  rw [List.append_assoc, List.singleton_append, List.isChain_split]

theorem padding?_eq {rows : List ρ} {r : ρ} (h : rows.getLast? = some r) :
    k.padding? (rows.map f.cells) =
      some ((f.extra r (nextPowerOfTwo rows.length - rows.length)).map f.cells) := by
  have hlast : (rows.map f.cells).getLast?.getD [] = f.cells r := by
    rw [List.getLast?_map, h]
    rfl
  rw [Kind.padding?_eq_of_fill? fun j => hlast ▸ f.fill_eq r j, List.length_map, extra, List.map_map]
  rfl

theorem pad_eq {t : Table k} {rows : List ρ} {r : ρ} (ht : t.matrix = rows.map f.cells)
    (h : rows.getLast? = some r) :
    t.pad = .ok { t with
      matrix := (rows ++ f.extra r (nextPowerOfTwo rows.length - rows.length)).map f.cells } := by
  have hne : t.matrix ≠ [] := by
    rw [ht, Ne, List.map_eq_nil_iff]
    exact List.ne_nil_of_mem (List.mem_of_getLast? h)
  have hpadding := f.padding?_eq h
  rw [← ht] at hpadding
  rw [Table.pad_eq_append (fun hnil => absurd hnil hne) hpadding, ht, List.map_append]

theorem exists_ofTrace {t : Trace} {program : Program} {rows : List ρ} (hne : rows ≠ [])
    (hderive : k.derive t program = .ok (rows.map f.cells)) (d : Domain) :
    ∃ m : Table k, Table.ofTrace k t program d = .ok m ∧
      m.matrix = (f.padded rows).map f.cells := by
  have hlast := List.getLast?_eq_some_getLast hne
  let unpadded : Table k :=
    { Table.empty k (rows.map f.cells).length d with matrix := rows.map f.cells }
  have hofTrace : Table.ofTrace k t program d = unpadded.pad := by
    rw [Table.ofTrace, Table.derive, hderive]
    rfl
  have hpad := f.pad_eq (show unpadded.matrix = _ from rfl) hlast
  exact ⟨_, hofTrace.trans hpad, by rw [padded, hlast]⟩

end Kind.Filling

def Register.filling : Kind.processor.Filling (Register Goldilocks) where
  cells := toList
  fill r j := { r with cycle := r.cycle + (j : Goldilocks), currentInstruction := 0,
                       nextInstruction := 0 }
  fill_eq _ _ := rfl

def InstructionRow.filling : Kind.instruction.Filling (InstructionRow Goldilocks) where
  cells := toList
  fill r j := ⟨r.address + (j : Goldilocks), 0, 0⟩
  fill_eq _ _ := rfl

def MemoryRow.filling : Kind.memory.Filling (MemoryRow Goldilocks) where
  cells := toList
  fill := repeated
  fill_eq _ _ := rfl

namespace Trace

def Unpadded (t : Trace) : Prop := ∀ r ∈ List.dropLast t, r.currentInstruction ≠ 0

instance (t : Trace) : Decidable t.Unpadded :=
  inferInstanceAs (Decidable (∀ r ∈ List.dropLast t, r.currentInstruction ≠ 0))

theorem getElem?_dropLast {t : Trace} {n : ℕ} (h : n + 1 < List.length t) :
    (List.dropLast t)[n]? = t[n]? := by
  rw [List.getElem?_dropLast, if_pos (Nat.lt_sub_of_add_lt h)]

theorem Unpadded.filter_eq_dropLast {t : Trace} (h : t.Unpadded)
    (hlast : ∀ r ∈ List.getLast? t, r.currentInstruction = 0) :
    t.filter (·.currentInstruction ≠ 0) = List.dropLast t := by
  cases hl : List.getLast? t with
  | none => simp [List.getLast?_eq_none_iff.mp hl]
  | some r =>
    have hidle := hlast r hl
    conv_lhs => rw [← List.dropLast_append_getLast? r hl]
    rw [List.filter_append, List.filter_eq_self.mpr]
    · simp [hidle]
    · intro q hq
      exact decide_eq_true (h q hq)

theorem requireUnpadded_eq_ok_iff {t : Trace} {k : Kind} :
    t.requireUnpadded k = .ok () ↔ t.Unpadded := by
  have hidle : t.idleRow? = none ↔ t.Unpadded := by
    rw [idleRow?, List.findIdx?_eq_none_iff]
    simp [Unpadded]
  rw [← hidle, requireUnpadded]
  cases t.idleRow? <;> simp

theorem derive_processor (t : Trace) (program : Program) :
    Kind.processor.derive t program = .ok (t.map Register.toList) := rfl

theorem derive_instruction {t : Trace} (h : t.Unpadded) (program : Program) :
    Kind.instruction.derive t program =
      .ok ((t.instructionRows program).map InstructionRow.toList) := by
  rw [Kind.derive, requireUnpadded_eq_ok_iff.mpr h]
  rfl

theorem derive_memory {t : Trace} (h : t.Unpadded) (program : Program) :
    Kind.memory.derive t program = .ok (t.memoryRows.map MemoryRow.toList) := by
  rw [Kind.derive, requireUnpadded_eq_ok_iff.mpr h]
  rfl

end Trace

end TapeAir
