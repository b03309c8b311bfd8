import TapeAir.Proofs.Argument.Evaluation
import TapeAir.Proofs.Field.PowerOfTwo
import TapeAir.Proofs.Machine.Replay
/-! # The public input and output

The symbols that a trace of a run writes are the output of the run, and those that it reads are the
beginning of its input, one for each read. The input and the output table hold these symbols, so
their terminals are known to everybody who knows the input and the output.
-/
namespace TapeAir

theorem Trace.writtenSymbols_append (t u : Trace) :
    writtenSymbols (t ++ u) = t.writtenSymbols ++ u.writtenSymbols := by
  rw [writtenSymbols, List.filter_append, List.map_append]
  rfl

namespace Machine
variable {program : Program} {m n l : Machine} {ms : List Machine} {xs : List Goldilocks}

theorem symbol_of_step {cell : Goldilocks} {symbol : Option Goldilocks}
    (hcell : program[m.instructionPointer]? = some cell)
    (hstep : m.step program cell = .ok (n, symbol)) :
    symbol = if (m.snapshot program).executes .write then
      some (m.snapshot program).memoryValue else none := by
  rcases step_cases hstep with ⟨i, hdecode, -, rfl⟩ | ⟨hdecode, -, rfl⟩
  · have hcurrent := (snapshot_current hcell).trans (decode_eq_some hdecode)
    have hwrite := Register.executes_iff hcurrent .write
    by_cases hi : i = .write
    · rw [if_pos (hwrite.mpr hi), hi]
      rfl
    · rw [if_neg (hwrite.not.mpr hi)]
      cases i <;> first | rfl | exact absurd rfl hi
  · exact (if_neg (not_executes_of_decode hcell hdecode .write)).symm

theorem Path.writtenSymbols (h : m.Path program ms xs l) :
    Trace.writtenSymbols (ms.map (·.snapshot program)) = xs := by
  induction h with
  | refl => rfl
  | step hcell hstep _ ih =>
    rw [symbol_of_step hcell hstep, ← ih, List.map_cons, Trace.writtenSymbols, List.filter_cons]
    split <;> rfl

end Machine

theorem writtenSymbols_of_simulate {fuel : ℕ} {program : Program} {input : List Goldilocks}
    {run : Run} (hrun : simulate fuel program input = some (.ok run)) :
    run.trace.writtenSymbols = run.output := by
  obtain ⟨ms, xs, l, hpath, -, rfl⟩ := path_of_simulate hrun
  have hfinal : Trace.writtenSymbols [l.final] = [] := rfl
  rw [Machine.runAlong, Trace.writtenSymbols_append, hpath.writtenSymbols, hfinal, List.append_nil]

namespace Trace

theorem readsBefore_cons_succ (r : Register Goldilocks) (t : Trace) (n : ℕ) :
    readsBefore (r :: t) (n + 1) = readsBefore t n + if r.executes .read then 1 else 0 := by
  rw [readsBefore, List.take_succ_cons, List.countP_cons]
  rfl

/-- If each read finds the next symbol of the input in the row after it, the trace reads the
beginning of the input. -/
theorem readSymbols?_eq {t : Trace} {input : List Goldilocks}
    (h : ∀ (n : ℕ) (r : Register Goldilocks), t[n]? = some r → r.executes .read →
      ∃ s, t[n + 1]? = some s ∧ input[t.readsBefore n]? = some s.memoryValue) :
    t.readSymbols? = some (input.take (t.countP (·.executes .read))) := by
  induction t generalizing input with
  | nil => simp [readSymbols?]
  | cons r rest ih =>
    rw [readSymbols?, List.countP_cons]
    by_cases hread : r.executes .read
    · obtain ⟨s, hs, hsymbol⟩ := h 0 r rfl hread
      obtain ⟨v, input, rfl⟩ := List.exists_cons_of_ne_nil (l := input) (by rintro rfl; cases hsymbol)
      obtain rfl := Option.some.inj hsymbol
      have hrest : readSymbols? rest = some (input.take (rest.countP (·.executes .read))) := by
        refine ih fun n q hq hqread => ?_
        have hnext := h (n + 1) q hq hqread
        rwa [readsBefore_cons_succ, if_pos hread, List.getElem?_cons_succ] at hnext
      have hhead : rest.head? = some s := List.head?_eq_getElem?.trans hs
      rw [if_pos hread, if_pos hread, hhead, hrest, List.take_succ_cons]
      rfl
    · rw [if_neg hread, if_neg hread]
      refine ih fun n q hq hqread => ?_
      have hnext := h (n + 1) q hq hqread
      rwa [readsBefore_cons_succ, if_neg hread] at hnext

theorem Records.readSymbols? {program : Program} {input : List Goldilocks} {states : List Machine}
    {t : Trace} (h : Records program input states t) :
    t.readSymbols? = some (input.take (t.countP (·.executes .read))) := by
  refine readSymbols?_eq fun n r hr hread => ?_
  have hs := List.getElem?_eq_getElem (h.succ_lt_length hr hread)
  exact ⟨_, hs, h.symbol_eq hr hs hread⟩

end Trace

def Kind.HoldsSymbols.filling {k : Kind} (hk : k.HoldsSymbols) : k.Filling Goldilocks where
  cells x := [x]
  fill _ _ := 0
  fill_eq _ _ := by rcases hk with rfl | rfl <;> rfl

namespace Table
variable {k : Kind} (hk : k.HoldsSymbols)
include hk

theorem pad_symbols {t : Table k} {symbols : List Goldilocks} (h : t.matrix = symbols.map ([·])) :
    t.pad = .ok { t with
      matrix := (symbols ++
        List.replicate (nextPowerOfTwo symbols.length - symbols.length) 0).map ([·]) } := by
  cases hlast : symbols.getLast? with
  | none =>
    obtain rfl := List.getLast?_eq_none_iff.mp hlast
    rcases hk with rfl | rfl <;>
    · rw [pad, h]
      rfl
  | some x =>
    have hextra (n : ℕ) : hk.filling.extra x n = List.replicate n 0 :=
      List.map_const'.trans (congrArg (List.replicate · 0) List.length_range)
    rw [hk.filling.pad_eq h hlast, hextra]
    rfl

theorem ofTrace_symbols {t : Trace} {program : Program} {symbols : List Goldilocks}
    (hderive : k.derive t program = .ok (symbols.map ([·]))) (d : Domain) :
    ofTrace k t program d = .ok { empty k symbols.length d with
      matrix := (symbols ++
        List.replicate (nextPowerOfTwo symbols.length - symbols.length) 0).map ([·]) } := by
  let unpadded : Table k := { empty k symbols.length d with matrix := symbols.map ([·]) }
  have hofTrace : ofTrace k t program d = unpadded.pad := by
    rw [ofTrace, derive, hderive]
    simp only [bind, Except.bind, List.length_map]
    rfl
  exact hofTrace.trans (pad_symbols hk rfl)

theorem exists_ofTrace_symbols {t : Trace} {program : Program} {symbols : List Goldilocks}
    (hderive : k.derive t program = .ok (symbols.map ([·]))) (d : Domain) :
    ∃ s : Table k, ofTrace k t program d = .ok s ∧ ∀ ch initial, ∃ s',
      s.extend ch initial = .ok s' ∧ s'.Compresses (k.evaluationPoint ch) symbols := by
  refine ⟨_, ofTrace_symbols hk hderive d, fun ch initial => ?_⟩
  refine exists_extend_compresses hk rfl ?_ rfl ch initial
  exact (Nat.add_sub_of_le (le_nextPowerOfTwo symbols.length)).symm

end Table

namespace Trace

theorem derive_input {t : Trace} {symbols : List Goldilocks} (h : t.Unpadded)
    (hsymbols : t.readSymbols? = some symbols) (program : Program) :
    Kind.input.derive t program = .ok (symbols.map ([·])) := by
  rw [Kind.derive, requireUnpadded_eq_ok_iff.mpr h, hsymbols]
  rfl

theorem derive_output {t : Trace} (h : t.Unpadded) (program : Program) :
    Kind.output.derive t program = .ok (t.writtenSymbols.map ([·])) := by
  rw [Kind.derive, requireUnpadded_eq_ok_iff.mpr h]
  rfl

end Trace

/-- A run that ends writes its output and reads the beginning of its input, one symbol for each
read. The tables of these symbols can be made and extended. The terminals are the evaluations of
the symbols, and the last rows show them carried over the padding. -/
theorem symbol_tables_of_simulate {fuel : ℕ} {program : Program} {input : List ℤ} {run : Run}
    (hrun : simulate fuel program (input.map Goldilocks.ofInt) = some (.ok run)) (d : Domain) :
    let read := (input.take (run.trace.countP (·.executes .read))).map Goldilocks.ofInt
    run.trace.readSymbols? = some read ∧ run.trace.writtenSymbols = run.output ∧
      ∃ i o, Table.ofTrace .input run.trace program d = .ok i ∧
        Table.ofTrace .output run.trace program d = .ok o ∧
        ∀ ch initial, ∃ i' o', i.extend ch initial = .ok i' ∧ o.extend ch initial = .ok o' ∧
          i'.Compresses ch.gamma read ∧ o'.Compresses ch.delta run.output := by
  intro read
  obtain ⟨states, h⟩ := exists_records hrun
  have hread : run.trace.readSymbols? = some read := by rw [h.readSymbols?, ← List.map_take]
  have hwritten := writtenSymbols_of_simulate hrun
  have hinput := Trace.derive_input h.unpadded hread program
  have houtput := hwritten ▸ Trace.derive_output h.unpadded program
  obtain ⟨i, hi, hiextends⟩ := Table.exists_ofTrace_symbols (.inl rfl) hinput d
  obtain ⟨o, ho, hoextends⟩ := Table.exists_ofTrace_symbols (.inr rfl) houtput d
  refine ⟨hread, hwritten, i, o, hi, ho, fun ch initial => ?_⟩
  obtain ⟨i', hi', hicompresses⟩ := hiextends ch initial
  obtain ⟨o', ho', hocompresses⟩ := hoextends ch initial
  exact ⟨i', o', hi', ho', hicompresses, hocompresses⟩

/-- The program `,,.,`, which writes the second of three symbols. -/
def second : Program :=
  #[Instruction.read.code, Instruction.read.code, Instruction.write.code, Instruction.read.code]

def writingSecond : Run :=
  ⟨[⟨0, 0, Instruction.read.code, Instruction.read.code, 0, 0, 0⟩,
    ⟨1, 1, Instruction.read.code, Instruction.write.code, 0, 1, 1⟩,
    ⟨(2 : ℕ), (2 : ℕ), Instruction.write.code, Instruction.read.code, 0, -1, -1⟩,
    ⟨(3 : ℕ), (3 : ℕ), Instruction.read.code, 0, 0, -1, -1⟩,
    ⟨(4 : ℕ), (4 : ℕ), 0, 0, 0, 1, 1⟩], [-1]⟩

theorem writingSecond_symbol_tables :
    simulate 5 second ([1, -1, 1, 0].map Goldilocks.ofInt) = some (.ok writingSecond) ∧
      writingSecond.trace.readSymbols? = some ([1, -1, 1].map Goldilocks.ofInt) ∧
      writingSecond.trace.writtenSymbols = [-1] ∧
      ∃ i o, Table.ofTrace .input writingSecond.trace second ⟨2, 1, 1⟩ = .ok i ∧
        Table.ofTrace .output writingSecond.trace second ⟨2, 1, 1⟩ = .ok o ∧
        ∀ ch initial, ∃ i' o', i.extend ch initial = .ok i' ∧ o.extend ch initial = .ok o' ∧
          i'.Compresses ch.gamma ([1, -1, 1].map Goldilocks.ofInt) ∧ o'.Compresses ch.delta [-1] := by
  have hrun : simulate 5 second ([1, -1, 1, 0].map Goldilocks.ofInt) =
      some (.ok writingSecond) := by cbv
  exact ⟨hrun, symbol_tables_of_simulate hrun ⟨2, 1, 1⟩⟩

end TapeAir
