import Mathlib.Data.Nat.Notation
import TapeAir.Machine.Run
/-! # The course of a run

A path is what a run goes through, without fuel: the machines of its cycles and the symbols that
they write. Fuel only bounds the length of the path, so an outcome does not depend on it.
-/
namespace TapeAir

/-- From one machine to another by cycles that start in the listed machines and write the listed
symbols. -/
inductive Machine.Path (program : Program) :
    Machine → List Machine → List Goldilocks → Machine → Prop where
  | refl (m) : Path program m [] [] m
  | step {m n l ms symbols cell symbol} : program[m.instructionPointer]? = some cell →
      m.step program cell = .ok (n, symbol) → Path program n ms symbols l →
      Path program m (m :: ms) (symbol.toList ++ symbols) l

namespace Machine
variable {program : Program} {m n l : Machine} {ms ns : List Machine} {xs ys : List Goldilocks}

theorem Path.trans (h : Path program m ms xs n) (h' : Path program n ns ys l) :
    Path program m (ms ++ ns) (xs ++ ys) l := by
  induction h with
  | refl => exact h'
  | step hcell hstep _ ih =>
    rw [List.append_assoc]
    exact .step hcell hstep (ih h')

theorem Path.single {cell : Goldilocks} {symbol : Option Goldilocks}
    (hcell : program[m.instructionPointer]? = some cell)
    (hstep : m.step program cell = .ok (n, symbol)) : Path program m [m] symbol.toList n := by
  simpa using Path.step hcell hstep (.refl n)

theorem decode_code (i : Instruction) : decode (i.code : Goldilocks) = .ok (some i) := by
  cases i <;> rfl

theorem step_code (i : Instruction) :
    m.step program (i.code : Goldilocks) =
      (m.execute program i).map fun n => (n, m.emitted (some i)) := by
  rw [step, decode_code]
  cases h : m.execute program i <;> simp [bind, Except.bind, Except.map, h, pure, Except.pure]

def Halted (program : Program) (m : Machine) : Prop := program[m.instructionPointer]? = none

def Faults (program : Program) (m : Machine) (e : Fault) : Prop :=
  ∃ cell, program[m.instructionPointer]? = some cell ∧ m.step program cell = .error e

end Machine

namespace Run
variable {program : Program} {m l : Machine} {ms : List Machine} {xs : List Goldilocks}
variable {past : Trace} {output : List Goldilocks} {fuel : ℕ}

theorem continueFrom_step {cell : Goldilocks} {symbol : Option Goldilocks}
    (hcell : program[m.instructionPointer]? = some cell)
    (hstep : m.step program cell = .ok (l, symbol)) :
    continueFrom program (fuel + 1) m past output =
      continueFrom program fuel l (m.snapshot program :: past) (symbol.toList ++ output) := by
  rw [continueFrom, hcell]
  simp only [hstep]

theorem continueFrom_path (h : m.Path program ms xs l) :
    continueFrom program (ms.length + fuel) m past output =
      continueFrom program fuel l ((ms.map (·.snapshot program)).reverse ++ past)
        (xs.reverse ++ output) := by
  induction h generalizing past output with
  | refl => simp
  | @step _ _ _ _ _ _ symbol hcell hstep _ ih =>
    rw [List.length_cons, Nat.succ_add_eq_add_succ, Nat.add_succ, continueFrom_step hcell hstep, ih]
    cases symbol <;> simp

theorem continueFrom_halted (h : m.Halted program) :
    continueFrom program (fuel + 1) m past output =
      some (.ok ⟨(m.final :: past).reverse, output.reverse⟩) := by
  rw [continueFrom, show program[m.instructionPointer]? = none from h]

theorem continueFrom_faults {e : Fault} (h : m.Faults program e) :
    continueFrom program (fuel + 1) m past output = some (.error e) := by
  obtain ⟨cell, hcell, hstep⟩ := h
  rw [continueFrom, hcell]
  simp only [hstep]

theorem path_of_continueFrom {outcome : Except Fault Run}
    (h : continueFrom program fuel m past output = some outcome) :
    ∃ ms xs l, m.Path program ms xs l ∧
      ((l.Halted program ∧ outcome =
          .ok ⟨past.reverse ++ (ms.map (·.snapshot program) ++ [l.final]), output.reverse ++ xs⟩) ∨
        ∃ e, l.Faults program e ∧ outcome = .error e) := by
  induction fuel generalizing m past output with
  | zero => cases h
  | succ fuel ih =>
    rw [continueFrom] at h
    split at h
    · next hcell =>
      refine ⟨[], [], m, .refl m, .inl ⟨hcell, ?_⟩⟩
      simpa using (Option.some.inj h).symm
    · next cell hcell =>
      split at h
      · next e hstep =>
        exact ⟨[], [], m, .refl m, .inr ⟨e, ⟨cell, hcell, hstep⟩, (Option.some.inj h).symm⟩⟩
      · next n symbol hstep =>
        obtain ⟨ms, xs, l, hpath, hend⟩ := ih h
        refine ⟨m :: ms, symbol.toList ++ xs, l, .step hcell hstep hpath, hend.imp_left ?_⟩
        rintro ⟨hhalted, rfl⟩
        refine ⟨hhalted, ?_⟩
        cases symbol <;> simp

theorem continueFrom_mono {outcome : Except Fault Run} {more : ℕ}
    (h : continueFrom program fuel m past output = some outcome) (hle : fuel ≤ more) :
    continueFrom program more m past output = some outcome := by
  induction fuel generalizing more m past output with
  | zero => cases h
  | succ fuel ih =>
    obtain ⟨more, rfl⟩ := Nat.exists_eq_add_of_le' (Nat.one_le_of_lt hle)
    rw [continueFrom] at h ⊢
    cases hcell : program[m.instructionPointer]? with
    | none => simpa only [hcell] using h
    | some cell =>
      cases hstep : m.step program cell with
      | error e => simpa only [hcell, hstep] using h
      | ok next =>
        simp only [hcell, hstep] at h ⊢
        exact ih h (Nat.le_of_succ_le_succ hle)

theorem outcome_unique {outcome outcome' : Except Fault Run} {fuel' : ℕ}
    (h : continueFrom program fuel m past output = some outcome)
    (h' : continueFrom program fuel' m past output = some outcome') : outcome = outcome' := by
  have hmore := continueFrom_mono h (Nat.le_max_left fuel fuel')
  have hmore' := continueFrom_mono h' (Nat.le_max_right fuel fuel')
  exact Option.some.inj (hmore.symm.trans hmore')

theorem continueFrom_eq_none_of_path (h : m.Path program ms xs l)
    (hnone : ∀ past output, continueFrom program (fuel - ms.length) l past output = none) :
    continueFrom program fuel m past output = none := by
  by_cases hle : ms.length ≤ fuel
  · rw [← Nat.add_sub_cancel' hle, continueFrom_path h, hnone]
  · cases hcontinue : continueFrom program fuel m past output with
    | none => rfl
    | some outcome =>
      have hmore := continueFrom_mono hcontinue (Nat.le_of_not_le hle)
      rw [← Nat.add_zero ms.length, continueFrom_path h] at hmore
      cases hmore

end Run

section Simulate
variable {program : Program} {input : List Goldilocks} {l : Machine} {ms : List Machine}
variable {xs : List Goldilocks}

def Machine.runAlong (program : Program) (ms : List Machine) (xs : List Goldilocks) (l : Machine) :
    Run :=
  ⟨ms.map (·.snapshot program) ++ [l.final], xs⟩

theorem simulate_halted (h : Machine.Path program { input } ms xs l) (hl : l.Halted program) :
    simulate (ms.length + 1) program input = some (.ok (Machine.runAlong program ms xs l)) := by
  rw [simulate, Run.continueFrom_path h, Run.continueFrom_halted hl]
  simp [Machine.runAlong]

theorem simulate_faults {e : Fault} (h : Machine.Path program { input } ms xs l)
    (hl : l.Faults program e) : simulate (ms.length + 1) program input = some (.error e) := by
  rw [simulate, Run.continueFrom_path h, Run.continueFrom_faults hl]

theorem path_of_simulate {fuel : ℕ} {run : Run} (h : simulate fuel program input = some (.ok run)) :
    ∃ ms xs l, Machine.Path program { input } ms xs l ∧ l.Halted program ∧
      run = Machine.runAlong program ms xs l := by
  obtain ⟨ms, xs, l, hpath, hend⟩ := Run.path_of_continueFrom h
  rcases hend with ⟨hl, hrun⟩ | ⟨e, -, he⟩
  · exact ⟨ms, xs, l, hpath, hl, Except.ok.inj hrun⟩
  · cases he

end Simulate

end TapeAir
