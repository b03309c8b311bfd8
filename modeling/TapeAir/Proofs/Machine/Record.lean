import TapeAir.Proofs.Machine.History
import TapeAir.Proofs.Machine.Lawful
import TapeAir.Proofs.Machine.Path
import TapeAir.Proofs.Table.Padding
/-! # The trace that a run leaves behind

A run that ends has carried out an instruction in every cycle: where a cell holds none, the machine
stays for ever. So each row of the trace shows an instruction and leads to the next row, and every
row shows the value last written to its pointer.
-/
namespace TapeAir

theorem Instruction.code_of_ofCode? {n : ℕ} {i : Instruction} (h : ofCode? n = some i) :
    i.code = n := by
  simpa using List.find?_some h

namespace Machine
variable {program : Program} {m n l : Machine} {ms : List Machine} {xs : List Goldilocks}

structure Executes (program : Program) (i : Instruction) (m n : Machine) : Prop where
  cell : program[m.instructionPointer]? = some (i.code : Goldilocks)
  result : m.execute program i = .ok n

theorem decode_eq_some {cell : Goldilocks} {i : Instruction} (h : decode cell = .ok (some i)) :
    cell = i.code := by
  rw [decode] at h
  split at h
  · cases h
  · split at h
    · cases h
    · rw [Instruction.code_of_ofCode? (Except.ok.inj h), Goldilocks.natCast_val]

/-- A cycle carries out the instruction of the cell, or the cell has none and the machine stays. -/
theorem step_cases {cell : Goldilocks} {symbol : Option Goldilocks}
    (hstep : m.step program cell = .ok (n, symbol)) :
    (∃ i, decode cell = .ok (some i) ∧ m.execute program i = .ok n ∧
        symbol = m.emitted (some i)) ∨
      decode cell = .ok none ∧ n = m.goto m.instructionPointer ∧ symbol = none := by
  rw [step] at hstep
  cases hdecode : decode cell with
  | error e => simp [hdecode, bind, Except.bind] at hstep
  | ok i? =>
    cases i? with
    | none =>
      simp only [hdecode, bind, Except.bind, pure, Except.pure, Except.ok.injEq,
        Prod.mk.injEq] at hstep
      exact .inr ⟨rfl, hstep.1.symm, hstep.2.symm⟩
    | some i =>
      cases hexecute : m.execute program i with
      | error e => simp [hdecode, hexecute, bind, Except.bind] at hstep
      | ok n' =>
        simp only [hdecode, hexecute, bind, Except.bind, pure, Except.pure, Except.ok.injEq,
          Prod.mk.injEq] at hstep
        exact .inl ⟨i, rfl, hexecute.trans (congrArg _ hstep.1), hstep.2.symm⟩

/-- A cycle carries out an instruction, or the cell has none and the next cycle is at the same
cell. -/
theorem executes_or_stays {cell : Goldilocks} {symbol : Option Goldilocks}
    (hcell : program[m.instructionPointer]? = some cell)
    (hstep : m.step program cell = .ok (n, symbol)) :
    (∃ i, Executes program i m n) ∨
      decode cell = .ok none ∧ n.instructionPointer = m.instructionPointer := by
  rcases step_cases hstep with ⟨i, hdecode, hresult, -⟩ | ⟨hdecode, rfl, -⟩
  · exact .inl ⟨i, decode_eq_some hdecode ▸ hcell, hresult⟩
  · exact .inr ⟨hdecode, rfl⟩

theorem Path.stuck {cell : Goldilocks} (h : m.Path program ms xs l)
    (hcell : program[m.instructionPointer]? = some cell) (hdecode : decode cell = .ok none) :
    program[l.instructionPointer]? = some cell := by
  induction h with
  | refl => exact hcell
  | step hcell' hstep _ ih =>
    obtain rfl := Option.some.inj (hcell.symm.trans hcell')
    rcases executes_or_stays hcell hstep with ⟨i, hi⟩ | ⟨-, hstay⟩
    · obtain rfl := Option.some.inj (hcell.symm.trans hi.cell)
      rw [decode_code] at hdecode
      cases hdecode
    · exact ih (hstay ▸ hcell)

theorem Path.head (h : m.Path program ms xs l) : (ms ++ [l]).head? = some m := by
  cases h <;> rfl

/-- On the way to the end of the program every cycle carries out an instruction. -/
theorem Path.executes (h : m.Path program ms xs l) (hl : l.Halted program) :
    (ms ++ [l]).IsChain fun a b => ∃ i, Executes program i a b := by
  induction h with
  | refl => exact List.isChain_singleton _
  | step hcell hstep hpath ih =>
    refine List.isChain_cons.mpr ⟨?_, ih hl⟩
    intro q hq
    obtain rfl := Option.some.inj (hpath.head.symm.trans hq)
    rcases executes_or_stays hcell hstep with hi | ⟨hdecode, hstay⟩
    · exact hi
    · have hstuck := hpath.stuck (hstay ▸ hcell) hdecode
      rw [hl] at hstuck
      cases hstuck

structure After (program : Program) (i : Instruction) (m n : Machine) : Prop where
  cycle : n.cycle = m.cycle + 1
  address : (n.instructionPointer : Goldilocks) = Register.target i (m.snapshot program)
  pointer : n.memoryPointer = Register.moved i (m.snapshot program)
  tape : n.tape = match (m.snapshot program).written? (n.snapshot program) with
    | some v => m.tape.write m.memoryPointer v
    | none => m.tape

theorem snapshot_current {cell : Goldilocks} (hcell : program[m.instructionPointer]? = some cell) :
    (m.snapshot program).currentInstruction = cell := by
  simp [snapshot, register, hcell]

theorem Executes.snapshot_current {i : Instruction} (h : Executes program i m n) :
    (m.snapshot program).currentInstruction = i.code :=
  Machine.snapshot_current h.cell

theorem not_executes_of_decode {cell : Goldilocks}
    (hcell : program[m.instructionPointer]? = some cell) (hdecode : decode cell = .ok none)
    (i : Instruction) : ¬(m.snapshot program).executes i := by
  intro hi
  have hcode : cell = i.code := (snapshot_current hcell).symm.trans (of_decide_eq_true hi)
  rw [hcode, decode_code] at hdecode
  cases hdecode

theorem jump_eq (h : m.jump program = .ok n) :
    ∃ x : Goldilocks, program[m.instructionPointer + 1]? = some x ∧ n = m.goto x.val := by
  rw [jump] at h
  split at h
  · next x hx => exact ⟨x, hx, (Except.ok.inj h).symm⟩
  · cases h

theorem jump_address (h : m.jump program = .ok n) :
    n = m.goto n.instructionPointer ∧
      (n.instructionPointer : Goldilocks) = (m.snapshot program).nextInstruction := by
  obtain ⟨x, hx, rfl⟩ := jump_eq h
  exact ⟨rfl, by simp [goto, snapshot, register, hx, Goldilocks.natCast_val]⟩

theorem skipped_address (h : n.instructionPointer = m.instructionPointer + 2) :
    (n.instructionPointer : Goldilocks) = (m.snapshot program).instructionPointer + 2 := by
  simp [h, snapshot, register]

theorem advanced_address (h : n.instructionPointer = m.instructionPointer + 1) :
    (n.instructionPointer : Goldilocks) = (m.snapshot program).instructionPointer + 1 := by
  simp [h, snapshot, register]

theorem Executes.after {i : Instruction} (h : Executes program i m n) : After program i m n := by
  have hwritten := Register.written?_eq h.snapshot_current (n.snapshot program)
  have hresult := h.result
  cases i with
  | loopStart =>
    rw [execute] at hresult
    by_cases hzero : m.value = 0
    · rw [if_pos hzero] at hresult
      obtain ⟨hn, hnext⟩ := jump_address hresult
      exact ⟨hn ▸ rfl, hnext.trans (if_pos hzero).symm, hn ▸ rfl,
        by rw [hwritten]; exact hn ▸ rfl⟩
    · rw [if_neg hzero] at hresult
      obtain rfl := Except.ok.inj hresult
      exact ⟨rfl, (skipped_address rfl).trans (if_neg hzero).symm, rfl, by rw [hwritten]; rfl⟩
  | loopEnd =>
    rw [execute] at hresult
    by_cases hzero : m.value = 0
    · rw [if_pos hzero] at hresult
      obtain rfl := Except.ok.inj hresult
      exact ⟨rfl, (skipped_address rfl).trans (if_pos hzero).symm, rfl, by rw [hwritten]; rfl⟩
    · rw [if_neg hzero] at hresult
      obtain ⟨hn, hnext⟩ := jump_address hresult
      exact ⟨hn ▸ rfl, hnext.trans (if_neg hzero).symm, hn ▸ rfl,
        by rw [hwritten]; exact hn ▸ rfl⟩
  | left =>
    obtain rfl := Except.ok.inj hresult
    exact ⟨rfl, advanced_address rfl, rfl, by rw [hwritten]; rfl⟩
  | right =>
    obtain rfl := Except.ok.inj hresult
    exact ⟨rfl, advanced_address rfl, rfl, by rw [hwritten]; rfl⟩
  | increment =>
    obtain rfl := Except.ok.inj hresult
    exact ⟨rfl, advanced_address rfl, rfl, by rw [hwritten]; rfl⟩
  | decrement =>
    obtain rfl := Except.ok.inj hresult
    exact ⟨rfl, advanced_address rfl, rfl, by rw [hwritten]; rfl⟩
  | read =>
    rw [execute] at hresult
    split at hresult
    · cases hresult
    · next v rest hinput =>
      obtain rfl := Except.ok.inj hresult
      refine ⟨rfl, advanced_address rfl, rfl, ?_⟩
      rw [hwritten]
      simp [Register.stored?, snapshot, register, value, advance, goto, store, Tape.read_write]
  | write =>
    obtain rfl := Except.ok.inj hresult
    exact ⟨rfl, advanced_address rfl, rfl, by rw [hwritten]; rfl⟩

theorem Executes.read {i : Instruction} (h : Executes program i m n) (p : Goldilocks) :
    n.tape.read p =
      if m.memoryPointer = p then
        ((m.snapshot program).written? (n.snapshot program)).getD (m.tape.read p)
      else m.tape.read p := by
  rw [h.after.tape]
  cases (m.snapshot program).written? (n.snapshot program) with
  | none => simp
  | some v => simp [Tape.read_write]

theorem Executes.leads {i : Instruction} (h : Executes program i m n) :
    Register.Leads i (m.snapshot program) (n.snapshot program) := by
  refine ⟨h.after.address, h.after.pointer, ?_⟩
  intro v hv
  obtain ⟨hmoved, hstored⟩ := Register.stored?_of_settled hv (n.snapshot program)
  change n.tape.read n.memoryPointer = v
  rw [h.read, h.after.pointer, hmoved, Register.written?_eq h.snapshot_current]
  exact (if_pos rfl).trans hstored

theorem final_eq (hl : l.Halted program) : l.final = l.snapshot program := by
  have hsize := Array.getElem?_eq_none_iff.mp hl
  rw [final, snapshot, Array.getElem?_eq_none hsize, Array.getElem?_eq_none (by omega)]
  rfl

theorem runAlong_trace (hl : l.Halted program) :
    (runAlong program ms xs l).trace = (ms ++ [l]).map (·.snapshot program) := by
  rw [runAlong, final_eq hl, List.map_append, List.map_singleton]

end Machine

/-- The states of a run from the start of the program to its end, each but the last carrying out an
instruction, and the rows that they show. -/
structure Trace.Records (program : Program) (input : List Goldilocks) (states : List Machine)
    (t : Trace) : Prop where
  rows : t = states.map (·.snapshot program)
  start : states.head? = some { input }
  executes : states.IsChain fun m n => ∃ i, Machine.Executes program i m n
  halts : ∀ l ∈ states.getLast?, l.Halted program

theorem exists_records {fuel : ℕ} {run : Run} {program : Program} {input : List Goldilocks}
    (h : simulate fuel program input = some (.ok run)) :
    ∃ states, Trace.Records program input states run.trace := by
  obtain ⟨ms, xs, l, hpath, hl, rfl⟩ := path_of_simulate h
  exact ⟨ms ++ [l], Machine.runAlong_trace hl, hpath.head, hpath.executes hl, by simpa using hl⟩

namespace Trace.Records
variable {program : Program} {input : List Goldilocks} {states : List Machine} {t : Trace}
variable (h : Records program input states t)
include h

theorem exists_state {n : ℕ} {r : Register Goldilocks} (hr : t[n]? = some r) :
    ∃ m, states[n]? = some m ∧ r = m.snapshot program := by
  rw [h.rows, List.getElem?_map, Option.map_eq_some_iff] at hr
  obtain ⟨m, hm, rfl⟩ := hr
  exact ⟨m, hm, rfl⟩

theorem row_eq {n : ℕ} {m : Machine} (hm : states[n]? = some m) :
    t[n]? = some (m.snapshot program) := by
  rw [h.rows, List.getElem?_map, hm]
  rfl

theorem executes_succ {k : ℕ} {m n : Machine} (hm : states[k]? = some m)
    (hn : states[k + 1]? = some n) : ∃ i, Machine.Executes program i m n := by
  obtain ⟨hk, rfl⟩ := List.getElem?_eq_some_iff.mp hn
  obtain ⟨_, rfl⟩ := List.getElem?_eq_some_iff.mp hm
  exact List.isChain_iff_getElem.mp h.executes k hk

theorem state_zero {m : Machine} (hm : states[0]? = some m) : m = { input } := by
  rw [← List.head?_eq_getElem?, h.start] at hm
  exact (Option.some.inj hm).symm

theorem ne_nil : t ≠ [] := by
  rintro rfl
  have hstart := h.start
  rw [List.map_eq_nil_iff.mp h.rows.symm] at hstart
  cases hstart

theorem inverse_eq {r : Register Goldilocks} (hr : r ∈ t) :
    r.memoryValueInverse = r.memoryValue⁻¹ := by
  obtain ⟨n, hn⟩ := List.mem_iff_getElem?.mp hr
  obtain ⟨m, -, rfl⟩ := h.exists_state hn
  rfl

theorem exists_instruction {n : ℕ} {r : Register Goldilocks} (hr : t[n]? = some r)
    (hn : n + 1 < t.length) : ∃ i : Instruction, r.currentInstruction = i.code := by
  obtain ⟨m, hm, rfl⟩ := h.exists_state hr
  obtain ⟨m', hm', -⟩ := h.exists_state (List.getElem?_eq_getElem hn)
  obtain ⟨i, hi⟩ := h.executes_succ hm hm'
  exact ⟨i, hi.snapshot_current⟩

theorem unpadded : t.Unpadded := by
  intro r hr
  obtain ⟨n, hn, rfl⟩ := List.getElem_of_mem hr
  rw [List.length_dropLast] at hn
  have hrow : t[n]? = some t[n] := List.getElem?_eq_getElem (by omega)
  obtain ⟨i, hi⟩ := h.exists_instruction hrow (by omega)
  rw [List.getElem_dropLast, hi]
  exact i.code_cast_ne_zero

/-- A row that another row follows shows the cells of the program at its address and behind it. -/
theorem fetched (hshort : program.size < Goldilocks.modulus) {n : ℕ} {r : Register Goldilocks}
    (hr : t[n]? = some r) (hn : n + 1 < List.length t) :
    ∃ i : Instruction, program[r.instructionPointer.val]? = some (i.code : Goldilocks) ∧
      r.currentInstruction = i.code ∧
      r.nextInstruction = program[r.instructionPointer.val + 1]?.getD 0 := by
  obtain ⟨m, hm, rfl⟩ := h.exists_state hr
  obtain ⟨m', hm', -⟩ := h.exists_state (List.getElem?_eq_getElem hn)
  obtain ⟨i, hi⟩ := h.executes_succ hm hm'
  have hlt := (Array.getElem?_eq_some_iff.mp hi.cell).1
  have haddress : (m.snapshot program).instructionPointer.val = m.instructionPointer :=
    Goldilocks.natCast_val_of_lt (hlt.trans hshort)
  rw [haddress]
  exact ⟨i, hi.cell, hi.snapshot_current, rfl⟩

theorem exists_final {r : Register Goldilocks} (hr : r ∈ t.getLast?) :
    ∃ l ∈ states.getLast?, r = l.final := by
  rw [h.rows, List.getLast?_map, Option.mem_def, Option.map_eq_some_iff] at hr
  obtain ⟨l, hl, rfl⟩ := hr
  exact ⟨l, hl, (Machine.final_eq (h.halts l hl)).symm⟩

theorem idle_last {r : Register Goldilocks} (hr : r ∈ t.getLast?) : r.currentInstruction = 0 := by
  obtain ⟨l, -, rfl⟩ := h.exists_final hr
  rfl

theorem succ_lt_length {n : ℕ} {r : Register Goldilocks} (hr : t[n]? = some r) {i : Instruction}
    (hi : r.executes i) : n + 1 < List.length t := by
  have hn := (List.getElem?_eq_some_iff.mp hr).1
  by_contra hlast
  have hidle : r.currentInstruction = 0 := by
    refine h.idle_last ?_
    rw [List.getLast?_eq_getElem?, show List.length t - 1 = n by omega]
    exact hr
  exact i.code_cast_ne_zero ((of_decide_eq_true hi).symm.trans hidle)

theorem runsThenIdles : t.RunsThenIdles := by
  refine ⟨t.dropLast, t.getLast?.toList, ?_, ?_, ?_⟩
  · cases hlast : t.getLast? with
    | none => simp [List.getLast?_eq_none_iff.mp hlast]
    | some r => exact (List.dropLast_append_getLast? r hlast).symm
  · intro r hr
    obtain ⟨n, hn, rfl⟩ := List.getElem_of_mem hr
    rw [List.length_dropLast] at hn
    exact h.exists_instruction (n := n) (by simp) (by omega)
  · intro r hr
    exact h.idle_last (by simpa using hr)

theorem lawful : Lawful t := by
  refine ⟨?_, ?_, ?_, h.runsThenIdles.coded⟩
  · intro r hr
    obtain ⟨m, hm, rfl⟩ := h.exists_state hr
    rw [h.state_zero hm]
    exact ⟨Nat.cast_zero, Nat.cast_zero, rfl, Tape.read_empty 0⟩
  · intro n r s hr hs
    obtain ⟨m, hm, rfl⟩ := h.exists_state hr
    obtain ⟨m', hm', rfl⟩ := h.exists_state hs
    obtain ⟨i, hi⟩ := h.executes_succ hm hm'
    refine ⟨?_, rfl⟩
    simp [Machine.snapshot, Machine.register, hi.after.cycle]
  · intro n r s i hr hs hcode
    obtain ⟨m, hm, rfl⟩ := h.exists_state hr
    obtain ⟨m', hm', rfl⟩ := h.exists_state hs
    obtain ⟨j, hj⟩ := h.executes_succ hm hm'
    obtain rfl := Instruction.code_cast_injective (hcode.symm.trans hj.snapshot_current)
    exact hj.leads

theorem read_eq {n : ℕ} {m : Machine} (hm : states[n]? = some m) (p : Goldilocks) :
    m.tape.read p = t.latestWrite p n := by
  induction n generalizing m with
  | zero =>
    rw [h.state_zero hm]
    exact Tape.read_empty p
  | succ n ih =>
    obtain ⟨k, hk⟩ := exists_row_of_le (Nat.le_succ n) hm
    obtain ⟨i, hi⟩ := h.executes_succ hk hm
    rw [latestWrite_succ (h.row_eq hk) (h.row_eq hm), hi.read, ih hk]
    rfl

theorem value_eq {n : ℕ} {r : Register Goldilocks} (hr : t[n]? = some r) :
    r.memoryValue = t.latestWrite r.memoryPointer n := by
  obtain ⟨m, hm, rfl⟩ := h.exists_state hr
  exact h.read_eq hm m.memoryPointer

end Trace.Records

/-- The program `,[-]`, which reads a number and counts it down. -/
def drain : Program :=
  #[Instruction.read.code, Instruction.loopStart.code, (6 : ℕ), Instruction.decrement.code,
    Instruction.loopEnd.code, (3 : ℕ)]

def draining : Run :=
  ⟨[⟨0, 0, Instruction.read.code, Instruction.loopStart.code, 0, 0, 0⟩,
    ⟨1, 1, Instruction.loopStart.code, (6 : ℕ), 0, (2 : ℕ), (2 : ℕ)⁻¹⟩,
    ⟨(2 : ℕ), (3 : ℕ), Instruction.decrement.code, Instruction.loopEnd.code, 0, (2 : ℕ), (2 : ℕ)⁻¹⟩,
    ⟨(3 : ℕ), (4 : ℕ), Instruction.loopEnd.code, (3 : ℕ), 0, 1, 1⟩,
    ⟨(4 : ℕ), (3 : ℕ), Instruction.decrement.code, Instruction.loopEnd.code, 0, 1, 1⟩,
    ⟨(5 : ℕ), (4 : ℕ), Instruction.loopEnd.code, (3 : ℕ), 0, 0, 0⟩,
    ⟨(6 : ℕ), (6 : ℕ), 0, 0, 0, 0, 0⟩], []⟩

theorem simulate_draining : simulate 7 drain [(2 : ℕ)] = some (.ok draining) := by cbv

end TapeAir
