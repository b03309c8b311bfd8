import TapeAir.Proofs.Machine.Replay
/-! # What a run takes of its input

A cycle looks at the input only if its row reads, and then at the first symbol alone. So two runs
whose inputs start with the same symbols go side by side until one of them reads behind these
symbols. A run that ends depends on the symbols that it has taken, one for each read; on fewer of
them it stops at the first read that finds none.
-/
namespace TapeAir

namespace Trace

def reads (t : Trace) : ℕ := List.countP (·.executes .read) t

theorem reads_cons (r : Register Goldilocks) (t : Trace) :
    reads (r :: t) = t.reads + if r.executes .read then 1 else 0 := List.countP_cons

end Trace

namespace Machine
variable {program : Program} {m n l : Machine} {ms : List Machine} {xs : List Goldilocks}

def feed (m : Machine) (input : List Goldilocks) : Machine := { m with input }

theorem jump_feed (m : Machine) (program : Program) (input : List Goldilocks) :
    (m.feed input).jump program = (m.jump program).map (·.feed input) := by
  simp only [jump, feed]
  split <;> rfl

theorem execute_feed {i : Instruction} (hi : i ≠ .read) (m : Machine) (program : Program)
    (input : List Goldilocks) :
    (m.feed input).execute program i = (m.execute program i).map (·.feed input) := by
  have hvalue : (m.feed input).value = m.value := rfl
  cases i with
  | loopStart =>
    rw [execute, execute, hvalue, jump_feed]
    split <;> rfl
  | loopEnd =>
    rw [execute, execute, hvalue, jump_feed]
    split <;> rfl
  | read => exact absurd rfl hi
  | left | right | increment | decrement | write => rfl

theorem execute_read (h : m.execute program .read = .ok n) :
    ∃ v, m.input = v :: n.input ∧
      ∀ rest, (m.feed (v :: rest)).execute program .read = .ok (n.feed rest) := by
  rw [execute] at h
  split at h
  · cases h
  · next v rest hinput =>
    obtain rfl := Except.ok.inj h
    exact ⟨v, hinput, fun _ => rfl⟩

/-- A cycle takes one symbol off the input if its row reads, and none otherwise. Before any other
input that starts in this way it does the same. -/
theorem step_takes {cell : Goldilocks} {symbol : Option Goldilocks}
    (hcell : program[m.instructionPointer]? = some cell)
    (hstep : m.step program cell = .ok (n, symbol)) :
    ∃ taken, m.input = taken ++ n.input ∧
      taken.length = (if (m.snapshot program).executes .read then 1 else 0) ∧
      ∀ rest, (m.feed (taken ++ rest)).step program cell = .ok (n.feed rest, symbol) := by
  rcases step_cases hstep with ⟨i, hdecode, hresult, rfl⟩ | ⟨hdecode, rfl, rfl⟩
  · obtain rfl := decode_eq_some hdecode
    have hread := Register.executes_iff (snapshot_current hcell) .read
    by_cases hi : i = .read
    · subst hi
      obtain ⟨v, hinput, hfeed⟩ := execute_read hresult
      refine ⟨[v], hinput, (if_pos (hread.mpr rfl)).symm, ?_⟩
      intro rest
      rw [step_code, List.singleton_append, hfeed]
      rfl
    · have hexecutes : Executes program i m n := ⟨hcell, hresult⟩
      refine ⟨[], (hexecutes.proceeds.unread hi).symm, (if_neg (hread.not.mpr hi)).symm, ?_⟩
      intro rest
      rw [step_code, List.nil_append, execute_feed hi, hresult]
      rfl
  · refine ⟨[], rfl, (if_neg (not_executes_of_decode hcell hdecode .read)).symm, ?_⟩
    intro rest
    rw [step, hdecode]
    rfl

/-- A path takes one symbol off the input for each row that reads. Before any other input that
starts with these symbols there is a path with the same rows and the same output. -/
theorem Path.takes (h : m.Path program ms xs l) :
    ∃ taken, m.input = taken ++ l.input ∧
      taken.length = Trace.reads (ms.map (·.snapshot program)) ∧
      ∀ rest, ∃ ms', (m.feed (taken ++ rest)).Path program ms' xs (l.feed rest) ∧
        ms'.map (·.snapshot program) = ms.map (·.snapshot program) := by
  induction h with
  | refl m => exact ⟨[], rfl, rfl, fun rest => ⟨[], .refl _, rfl⟩⟩
  | @step m n l ms xs cell symbol hcell hstep _ ih =>
    obtain ⟨first, hfirst, hcount, hfeed⟩ := step_takes hcell hstep
    obtain ⟨taken, htaken, hcounts, hpath⟩ := ih
    refine ⟨first ++ taken, ?_, ?_, ?_⟩
    · rw [hfirst, htaken, List.append_assoc]
    · rw [List.length_append, hcount, hcounts, List.map_cons, Trace.reads_cons, Nat.add_comm]
    · intro rest
      obtain ⟨ms', hms', hrows⟩ := hpath rest
      refine ⟨m.feed (first ++ taken ++ rest) :: ms', ?_, ?_⟩
      · rw [List.append_assoc]
        exact .step hcell (hfeed (taken ++ rest)) hms'
      · rw [List.map_cons, List.map_cons, hrows]
        rfl

/-- After each number of reads but the last a path comes to a machine that is about to read. -/
theorem Path.exists_read (h : m.Path program ms xs l) {j : ℕ}
    (hj : j < Trace.reads (ms.map (·.snapshot program))) :
    ∃ before q after ys, ms = before ++ q :: after ∧ m.Path program before ys q ∧
      Trace.reads (before.map (·.snapshot program)) = j ∧
      program[q.instructionPointer]? = some (Instruction.read.code : Goldilocks) := by
  induction h generalizing j with
  | refl => cases hj
  | @step m n l ms xs cell symbol hcell hstep hpath ih =>
    rw [List.map_cons, Trace.reads_cons] at hj
    by_cases hread : (m.snapshot program).executes .read
    · -- the first machine is the one about to read, or its read is one of the `j`
      cases j with
      | zero =>
        refine ⟨[], m, ms, [], rfl, .refl m, rfl, ?_⟩
        rw [hcell, ← snapshot_current hcell]
        exact congrArg some (of_decide_eq_true hread)
      | succ j =>
        rw [if_pos hread] at hj
        obtain ⟨before, q, after, ys, rfl, hq, hcount, hcode⟩ := ih (Nat.lt_of_succ_lt_succ hj)
        refine ⟨m :: before, q, after, _, rfl, .step hcell hstep hq, ?_, hcode⟩
        rw [List.map_cons, Trace.reads_cons, if_pos hread, hcount]
    · rw [if_neg hread] at hj
      obtain ⟨before, q, after, ys, rfl, hq, hcount, hcode⟩ := ih hj
      refine ⟨m :: before, q, after, _, rfl, .step hcell hstep hq, ?_, hcode⟩
      rw [List.map_cons, Trace.reads_cons, if_neg hread, hcount, Nat.add_zero]

theorem Path.cycle_eq (h : m.Path program ms xs l) : l.cycle = m.cycle + ms.length := by
  induction h with
  | refl => rfl
  | step hcell hstep _ ih =>
    rw [ih, List.length_cons]
    rcases step_cases hstep with ⟨i, hdecode, hresult, -⟩ | ⟨-, rfl, -⟩
    · have hexecutes := Executes.mk (decode_eq_some hdecode ▸ hcell) hresult
      rw [hexecutes.after.cycle, Nat.add_right_comm, Nat.add_assoc]
    · rw [goto, Nat.add_right_comm, Nat.add_assoc]

/-- A machine that is about to read stops if no input is left. -/
theorem faults_feed_nil
    (h : program[m.instructionPointer]? = some (Instruction.read.code : Goldilocks)) :
    (m.feed []).Faults program (.inputExhausted m.cycle) := by
  refine ⟨_, h, ?_⟩
  rw [step_code]
  rfl

theorem reads_runAlong (program : Program) (ms : List Machine) (xs : List Goldilocks)
    (l : Machine) :
    (runAlong program ms xs l).trace.reads = Trace.reads (ms.map (·.snapshot program)) := by
  have hfinal : l.final.executes .read = false := rfl
  rw [Trace.reads, runAlong, List.countP_append, List.countP_singleton, hfinal]
  rfl

end Machine

section Simulate
variable {fuel : ℕ} {program : Program} {input : List Goldilocks}

/-- An outcome needs fuel for more cycles than any path on its way has. -/
theorem length_lt_of_simulate {outcome : Except Fault Run} {l : Machine} {ms : List Machine}
    {xs : List Goldilocks} (h : simulate fuel program input = some outcome)
    (hpath : Machine.Path program { input } ms xs l) : ms.length < fuel := by
  by_contra hge
  have hspent : fuel - ms.length = 0 := Nat.sub_eq_zero_of_le (Nat.le_of_not_lt hge)
  have hnone : simulate fuel program input = none := by
    refine Run.continueFrom_eq_none_of_path hpath ?_
    intro past output
    rw [hspent, Run.continueFrom]
  rw [hnone] at h
  cases h

theorem Run.reads_le {run : Run} (h : simulate fuel program input = some (.ok run)) :
    run.trace.reads ≤ input.length := by
  obtain ⟨ms, xs, l, hpath, -, rfl⟩ := path_of_simulate h
  obtain ⟨taken, hinput, hcount, -⟩ := hpath.takes
  have hinput : input = taken ++ l.input := hinput
  rw [Machine.reads_runAlong, ← hcount, hinput, List.length_append]
  exact Nat.le_add_right _ _

theorem Run.simulate_of_take_eq {run : Run} (h : simulate fuel program input = some (.ok run))
    {other : List Goldilocks} (hsame : other.take run.trace.reads = input.take run.trace.reads) :
    simulate fuel program other = some (.ok run) := by
  obtain ⟨ms, xs, l, hpath, hl, rfl⟩ := path_of_simulate h
  obtain ⟨taken, hinput, hcount, hfeed⟩ := hpath.takes
  have hinput : input = taken ++ l.input := hinput
  rw [Machine.reads_runAlong, ← hcount] at hsame
  obtain ⟨ms', hpath', hrows⟩ := hfeed (other.drop taken.length)
  have hother : taken ++ other.drop taken.length = other := by
    rw [hinput, List.take_left] at hsame
    have hsplit := List.take_append_drop taken.length other
    rwa [hsame] at hsplit
  rw [hother] at hpath'
  have hlength : ms'.length = ms.length := by
    rw [← List.length_map, hrows, List.length_map]
  have hend := simulate_halted hpath' (l := l.feed (other.drop taken.length)) hl
  have hrun : Machine.runAlong program ms' xs (l.feed (other.drop taken.length)) =
      Machine.runAlong program ms xs l := by
    rw [Machine.runAlong, hrows]
    rfl
  rw [hlength, hrun] at hend
  exact Run.continueFrom_mono hend (length_lt_of_simulate h hpath)

/-- With fewer symbols than a run reads, the machine stops at the first read that finds none. -/
theorem Run.simulate_take {run : Run} (h : simulate fuel program input = some (.ok run)) {j : ℕ}
    (hj : j < run.trace.reads) :
    ∃ n r, run.trace[n]? = some r ∧ r.executes .read ∧ run.trace.readsBefore n = j ∧
      simulate fuel program (input.take j) = some (.error (.inputExhausted n)) := by
  obtain ⟨ms, xs, l, hpath, -, rfl⟩ := path_of_simulate h
  rw [Machine.reads_runAlong] at hj
  obtain ⟨before, q, after, ys, rfl, hq, hcount, hcode⟩ := hpath.exists_read hj
  obtain ⟨taken, hinput, hlength, hfeed⟩ := hq.takes
  have hinput : input = taken ++ q.input := hinput
  have hcycle : q.cycle = before.length := hq.cycle_eq.trans (Nat.zero_add _)
  have htrace : (Machine.runAlong program (before ++ q :: after) xs l).trace =
      before.map (·.snapshot program) ++ q.snapshot program ::
        (after.map (·.snapshot program) ++ [l.final]) := by
    simp [Machine.runAlong]
  refine ⟨before.length, q.snapshot program, ?_, ?_, ?_, ?_⟩
  · rw [htrace]
    simp
  · exact decide_eq_true (Machine.snapshot_current hcode)
  · rw [htrace, Trace.readsBefore]
    simpa [Trace.reads] using hcount
  · -- the symbols that are left end where the path up to this read has taken them
    obtain ⟨ms', hpath', hrows⟩ := hfeed []
    have htake : input.take j = taken ++ [] := by
      rw [hinput, ← hcount, ← hlength, List.take_left, List.append_nil]
    have hms : ms'.length = before.length := by
      rw [← List.length_map, hrows, List.length_map]
    have hend := simulate_faults hpath' (Machine.faults_feed_nil hcode)
    rw [hms, hcycle] at hend
    have hfuel := length_lt_of_simulate h hq
    rw [htake]
    exact Run.continueFrom_mono hend hfuel

end Simulate

/-- A run that ends depends on no more of its input than the symbols that it reads. It has found one
for each row that reads, it is the run of every input that starts with symbols of the same residues,
and on fewer of them the machine stops in the cycle of the first row that then finds none. -/
theorem simulate_reads_only {fuel : ℕ} {program : Program} {input : List ℤ} {run : Run}
    (hrun : simulate fuel program (input.map Goldilocks.ofInt) = some (.ok run)) :
    run.trace.reads ≤ input.length ∧
      (∀ other : List ℤ, run.trace.reads ≤ other.length →
        (other.take run.trace.reads).map Goldilocks.ofInt =
          (input.take run.trace.reads).map Goldilocks.ofInt →
        simulate fuel program (other.map Goldilocks.ofInt) = some (.ok run)) ∧
      ∀ j < run.trace.reads, ∃ (n : ℕ) (r : Register Goldilocks), run.trace[n]? = some r ∧
        r.executes .read ∧ run.trace.readsBefore n = j ∧ r.cycle = n ∧
        simulate fuel program ((input.take j).map Goldilocks.ofInt) =
          some (.error (.inputExhausted n)) ∧
        (Fault.inputExhausted n).message = some s!"입력이 부족합니다 (사이클 {n})" := by
  refine ⟨?_, ?_, ?_⟩
  · simpa using Run.reads_le hrun
  · intro other _ hsame
    rw [List.map_take, List.map_take] at hsame
    exact Run.simulate_of_take_eq hrun hsame
  · intro j hj
    obtain ⟨n, r, hr, hread, hbefore, hstop⟩ := Run.simulate_take hrun hj
    obtain ⟨states, hrecords⟩ := exists_records hrun
    refine ⟨n, r, hr, hread, hbefore, hrecords.lawful.cycle_eq hr, ?_, rfl⟩
    rwa [List.map_take]

/-- The program `,[.,]`, which writes what it reads until it reads a zero. -/
def copy : Program :=
  #[Instruction.read.code, Instruction.loopStart.code, (7 : ℕ), Instruction.write.code,
    Instruction.read.code, Instruction.loopEnd.code, (3 : ℕ)]

def copying : Run :=
  ⟨[⟨0, 0, Instruction.read.code, Instruction.loopStart.code, 0, 0, 0⟩,
    ⟨1, 1, Instruction.loopStart.code, (7 : ℕ), 0, (5 : ℕ), (5 : ℕ)⁻¹⟩,
    ⟨(2 : ℕ), (3 : ℕ), Instruction.write.code, Instruction.read.code, 0, (5 : ℕ), (5 : ℕ)⁻¹⟩,
    ⟨(3 : ℕ), (4 : ℕ), Instruction.read.code, Instruction.loopEnd.code, 0, (5 : ℕ), (5 : ℕ)⁻¹⟩,
    ⟨(4 : ℕ), (5 : ℕ), Instruction.loopEnd.code, (3 : ℕ), 0, 0, 0⟩,
    ⟨(5 : ℕ), (7 : ℕ), 0, 0, 0, 0, 0⟩], [(5 : ℕ)]⟩

theorem simulate_copying :
    simulate 6 copy ([5, 18446744069414584321, 8].map Goldilocks.ofInt) =
      some (.ok copying) := by cbv

/-- The second symbol is the modulus, which reads as zero, and the third is not read. -/
theorem copying_reads_only :
    copying.trace.reads = 2 ∧
      simulate 6 copy ([5, 0].map Goldilocks.ofInt) = some (.ok copying) ∧
      ∃ n : ℕ, copying.trace.readsBefore n = 1 ∧
        simulate 6 copy ([5].map Goldilocks.ofInt) = some (.error (.inputExhausted n)) := by
  have hreads : copying.trace.reads = 2 := by decide
  obtain ⟨-, hother, hfewer⟩ := simulate_reads_only simulate_copying
  obtain ⟨n, -, -, -, hbefore, -, hstop, -⟩ := hfewer 1 (by decide)
  exact ⟨hreads, hother [5, 0] (by decide) (by decide), n, hbefore, hstop⟩

end TapeAir
