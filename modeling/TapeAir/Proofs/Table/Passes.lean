import TapeAir.Proofs.Table.Symbols
/-! # Traces that are padded already

Each kind of table goes through a trace in its own way. The memory table leaves the last row out
before it starts. The instruction table looks for zeros in all rows, and lets one stand in the last.
The tables of symbols do so too, but only list the places of their instruction, and then look up the
values there or in the rows behind. All of them stop at the same row, if they stop at all.
-/
namespace TapeAir

namespace Trace
variable {t : Trace} {k : Kind} {i : ℕ}

structure FirstEarlyIdle (t : Trace) (i : ℕ) : Prop where
  inside : i + 1 < List.length t
  idle : ∃ r, t[i]? = some r ∧ r.currentInstruction = 0
  first : ∀ j < i, ∀ r, t[j]? = some r → r.currentInstruction ≠ 0

theorem idleRow?_eq_some_iff : t.idleRow? = some i ↔ t.FirstEarlyIdle i := by
  rw [idleRow?, List.findIdx?_eq_some_iff_getElem]
  constructor
  · rintro ⟨hlt, hidle, hfirst⟩
    have hinside : i + 1 < List.length t := by
      rw [List.length_dropLast] at hlt
      exact Nat.add_lt_of_lt_sub hlt
    refine ⟨hinside, ⟨_, ?_, of_decide_eq_true hidle⟩, ?_⟩
    · rw [← getElem?_dropLast hinside]
      exact List.getElem?_eq_getElem hlt
    · intro j hj r hr
      rw [← getElem?_dropLast (by omega)] at hr
      obtain ⟨-, rfl⟩ := List.getElem?_eq_some_iff.mp hr
      simpa using hfirst j hj
  · rintro ⟨hinside, ⟨r, hr, hidle⟩, hfirst⟩
    rw [← getElem?_dropLast hinside] at hr
    obtain ⟨hlt, rfl⟩ := List.getElem?_eq_some_iff.mp hr
    refine ⟨hlt, decide_eq_true hidle, ?_⟩
    intro j hj
    simpa using hfirst j hj _ ((getElem?_dropLast (by omega)).symm.trans
      (List.getElem?_eq_getElem (hj.trans hlt)))

theorem exists_firstEarlyIdle (h : ¬t.Unpadded) : ∃ i, t.FirstEarlyIdle i := by
  cases hi : t.idleRow? with
  | some i => exact ⟨i, idleRow?_eq_some_iff.mp hi⟩
  | none =>
    have hok : t.requireUnpadded .memory = .ok () := by rw [requireUnpadded, hi]
    exact absurd (requireUnpadded_eq_ok_iff.mp hok) h

section Pass
variable {α : Type} {refuses : Register Goldilocks → ℕ → Bool}
variable {gives : Register Goldilocks → ℕ → List α}

/-- Goes through numbered rows. It stops at the first row that it refuses, and otherwise joins what
the rows give. -/
def pass (t : Trace) (k : Kind) (refuses : Register Goldilocks → ℕ → Bool)
    (gives : Register Goldilocks → ℕ → List α) :
    List (Register Goldilocks × ℕ) → Except DerivationError (List α)
  | [] => .ok []
  | (r, n) :: rest =>
    if refuses r n then .error (.malformed ⟨k, n, t⟩)
    else do return gives r n ++ (← pass t k refuses gives rest)

theorem pass_eq_ok {rows : List (Register Goldilocks)} {n : ℕ}
    (h : ∀ j r, rows[j]? = some r → refuses r (n + j) = false) :
    t.pass k refuses gives (rows.zipIdx n) =
      .ok ((rows.zipIdx n).flatMap fun c => gives c.1 c.2) := by
  induction rows generalizing n with
  | nil => rfl
  | cons r rest ih =>
    have hr : refuses r n = false := h 0 r rfl
    have hrest := ih (n := n + 1) fun j q hq => by
      rw [Nat.add_right_comm]
      exact h (j + 1) q hq
    rw [List.zipIdx_cons, pass, hr, hrest]
    rfl

theorem pass_eq_error {rows : List (Register Goldilocks)} {n : ℕ} {r : Register Goldilocks}
    (hr : rows[i]? = some r) (hrefuses : refuses r (n + i))
    (hfirst : ∀ j < i, ∀ q, rows[j]? = some q → refuses q (n + j) = false) :
    t.pass k refuses gives (rows.zipIdx n) = .error (.malformed ⟨k, n + i, t⟩) := by
  induction rows generalizing n i with
  | nil => cases hr
  | cons q rest ih =>
    cases i with
    | zero =>
      obtain rfl := Option.some.inj hr
      rw [Nat.add_zero] at hrefuses ⊢
      rw [List.zipIdx_cons, pass, if_pos hrefuses]
    | succ i =>
      have hq : refuses q n = false := hfirst 0 i.succ_pos q rfl
      rw [← Nat.add_assoc, Nat.add_right_comm] at hrefuses ⊢
      have hrest := ih hr hrefuses fun j hj p hp => by
        rw [Nat.add_right_comm]
        exact hfirst (j + 1) (Nat.succ_lt_succ hj) p hp
      rw [List.zipIdx_cons, pass, hq, hrest]
      rfl

end Pass

def accessPass (t : Trace) : Except DerivationError (List (MemoryRow Goldilocks)) :=
  t.pass .memory (fun r _ => r.currentInstruction = 0) (fun r _ => [MemoryRow.ofRegister r])
    (List.dropLast t).zipIdx

def idlesEarly (t : Trace) (r : Register Goldilocks) (n : ℕ) : Bool :=
  r.currentInstruction = 0 ∧ n ≠ List.length t - 1

def executedPass (t : Trace) : Except DerivationError (List (InstructionRow Goldilocks)) :=
  t.pass .instruction t.idlesEarly
    (fun r _ => if r.currentInstruction = 0 then []
      else [⟨r.instructionPointer, r.currentInstruction, r.nextInstruction⟩])
    (List.zipIdx t)

def placePass (t : Trace) (k : Kind) (i : Instruction) : Except DerivationError (List ℕ) :=
  t.pass k t.idlesEarly (fun r n => if r.executes i then [n] else []) (List.zipIdx t)

def symbolAt (t : Trace) (n : ℕ) : Except DerivationError Goldilocks :=
  match t[n]? with
  | some r => .ok r.memoryValue
  | none => .error .unseenSymbol

theorem FirstEarlyIdle.accessPass (h : t.FirstEarlyIdle i) :
    t.accessPass = .error (.malformed ⟨.memory, i, t⟩) := by
  obtain ⟨r, hr, hidle⟩ := h.idle
  rw [← getElem?_dropLast h.inside] at hr
  rw [Trace.accessPass, ← Nat.zero_add i]
  refine pass_eq_error hr (decide_eq_true hidle) ?_
  intro j hj q hq
  rw [getElem?_dropLast (by have := h.inside; omega)] at hq
  exact decide_eq_false (h.first j hj q hq)

theorem FirstEarlyIdle.pass {α : Type} (h : t.FirstEarlyIdle i) (k : Kind)
    (gives : Register Goldilocks → ℕ → List α) :
    t.pass k t.idlesEarly gives (List.zipIdx t) = .error (.malformed ⟨k, i, t⟩) := by
  obtain ⟨r, hr, hidle⟩ := h.idle
  have hearly : 0 + i ≠ List.length t - 1 := by
    have := h.inside
    omega
  rw [← Nat.zero_add i]
  refine pass_eq_error hr (decide_eq_true ⟨hidle, hearly⟩) ?_
  intro j hj q hq
  exact decide_eq_false fun hq' => h.first j hj q hq hq'.1

theorem flatMap_zipIdx {α : Type} (rows : List (Register Goldilocks))
    (gives : Register Goldilocks → List α) :
    rows.zipIdx.flatMap (fun c => gives c.1) = rows.flatMap gives := by
  conv_rhs => rw [← List.zipIdx_map_fst 0 rows, List.flatMap_map]

theorem Unpadded.accessPass (h : t.Unpadded) :
    t.accessPass = .ok ((List.dropLast t).map MemoryRow.ofRegister) := by
  rw [Trace.accessPass, pass_eq_ok fun j r hr =>
    decide_eq_false (h r (List.mem_of_getElem? hr))]
  rw [flatMap_zipIdx _ fun r => [MemoryRow.ofRegister r], List.map_eq_flatMap]

theorem Unpadded.pass {α : Type} (h : t.Unpadded) (k : Kind)
    (gives : Register Goldilocks → ℕ → List α) :
    t.pass k t.idlesEarly gives (List.zipIdx t) =
      .ok ((List.zipIdx t).flatMap fun c => gives c.1 c.2) := by
  refine pass_eq_ok fun j r hr => decide_eq_false ?_
  rintro ⟨hidle, hearly⟩
  have hj : j + 1 < List.length t := by
    have := (List.getElem?_eq_some_iff.mp hr).1
    omega
  rw [← getElem?_dropLast hj] at hr
  exact h r (List.mem_of_getElem? hr) hidle

theorem flatMap_executed (rows : List (Register Goldilocks)) :
    (rows.flatMap fun r => if r.currentInstruction = 0 then []
      else [⟨r.instructionPointer, r.currentInstruction, r.nextInstruction⟩]) =
      executedRows rows := by
  induction rows with
  | nil => rfl
  | cons r rest ih =>
    rw [List.flatMap_cons, ih, executedRows, executedRows, List.filter_cons]
    by_cases hidle : r.currentInstruction = 0 <;> simp [hidle]

theorem Unpadded.executedPass (h : t.Unpadded) : t.executedPass = .ok t.executedRows := by
  rw [Trace.executedPass, h.pass]
  exact congrArg _ ((flatMap_zipIdx t _).trans (flatMap_executed t))

/-- The rows at the places of the writes show the written symbols. -/
theorem mapM_symbolAt_writes {rows : List (Register Goldilocks)} {n : ℕ}
    (h : List.drop n t = rows) :
    ((rows.zipIdx n).flatMap fun c => if c.1.executes .write then [c.2] else []).mapM t.symbolAt =
      .ok (writtenSymbols rows) := by
  induction rows generalizing n with
  | nil => rfl
  | cons r rest ih =>
    have hr : t[n]? = some r := by rw [← List.head?_drop, h, List.head?_cons]
    have hrest := ih (n := n + 1) (by rw [← List.tail_drop, h, List.tail_cons])
    rw [List.zipIdx_cons, List.flatMap_cons, writtenSymbols, List.filter_cons]
    by_cases hwrite : r.executes .write
    · rw [if_pos hwrite, if_pos hwrite, List.singleton_append, List.mapM_cons, hrest, symbolAt, hr]
      rfl
    · rw [if_neg hwrite, if_neg hwrite, List.nil_append, hrest]
      rfl

/-- The rows behind the places of the reads show the read symbols, unless one is missing. -/
theorem mapM_symbolAt_reads {rows : List (Register Goldilocks)} {n : ℕ}
    (h : List.drop n t = rows) :
    ((rows.zipIdx n).flatMap fun c => if c.1.executes .read then [c.2] else []).mapM
        (fun m => t.symbolAt (m + 1)) =
      match readSymbols? rows with
      | some symbols => .ok symbols
      | none => .error .unseenSymbol := by
  induction rows generalizing n with
  | nil => rfl
  | cons r rest ih =>
    have hnext : t[n + 1]? = rest.head? := by
      rw [← List.head?_drop, ← List.tail_drop, h, List.tail_cons]
    have hrest := ih (n := n + 1) (by rw [← List.tail_drop, h, List.tail_cons])
    rw [List.zipIdx_cons, List.flatMap_cons, readSymbols?]
    by_cases hread : r.executes .read
    · rw [if_pos hread, if_pos hread, List.singleton_append, List.mapM_cons, hrest, symbolAt,
        hnext]
      cases rest.head? with
      | none => rfl
      | some s => cases readSymbols? rest <;> rfl
    · rw [if_neg hread, if_neg hread, List.nil_append, hrest]

end Trace

namespace Kind

/-- Derives rows as `derive` does, but each kind in its own pass over the trace. -/
def deriveByPass (trace : Trace) (program : Program) : Kind → Except DerivationError (List Row)
  | .processor => .ok (trace.map Register.toList)
  | .instruction => do
    let executed ← trace.executedPass
    let rows := (program.instructionRows ++ executed).mergeSort fun r s =>
      r.address.val ≤ s.address.val
    return rows.map InstructionRow.toList
  | .memory => do
    let accesses ← trace.accessPass
    let rows := accesses.mergeSort fun r s => r.memoryPointer.val ≤ s.memoryPointer.val
    return (MemoryRow.interweave rows).map MemoryRow.toList
  | .input => do
    let places ← trace.placePass .input .read
    let symbols ← places.mapM fun n => trace.symbolAt (n + 1)
    return symbols.map ([·])
  | .output => do
    let places ← trace.placePass .output .write
    let symbols ← places.mapM trace.symbolAt
    return symbols.map ([·])

end Kind

namespace Trace
variable {t : Trace} {k : Kind} {i : ℕ}

theorem FirstEarlyIdle.derive (h : t.FirstEarlyIdle i) (program : Program) (hk : k ≠ .processor) :
    k.derive t program = .error (.malformed ⟨k, i, t⟩) := by
  have hstop (k : Kind) : t.requireUnpadded k = .error (.malformed ⟨k, i, t⟩) := by
    rw [requireUnpadded, idleRow?_eq_some_iff.mpr h]
  cases k with
  | processor => exact absurd rfl hk
  | instruction | memory | input | output =>
    rw [Kind.derive, hstop]
    rfl

theorem FirstEarlyIdle.deriveByPass (h : t.FirstEarlyIdle i) (program : Program)
    (hk : k ≠ .processor) : k.deriveByPass t program = .error (.malformed ⟨k, i, t⟩) := by
  cases k with
  | processor => exact absurd rfl hk
  | instruction =>
    rw [Kind.deriveByPass, executedPass, h.pass]
    rfl
  | memory =>
    rw [Kind.deriveByPass, h.accessPass]
    rfl
  | input | output =>
    rw [Kind.deriveByPass, placePass, h.pass]
    rfl

theorem Unpadded.deriveByPass (h : t.Unpadded) (k : Kind) (program : Program) :
    k.deriveByPass t program = k.derive t program := by
  cases k with
  | processor => rfl
  | instruction =>
    rw [Kind.deriveByPass, h.executedPass, derive_instruction h]
    rfl
  | memory =>
    rw [Kind.deriveByPass, h.accessPass, derive_memory h]
    rfl
  | input =>
    rw [Kind.deriveByPass, placePass, h.pass, Kind.derive, requireUnpadded_eq_ok_iff.mpr h]
    have hreads := mapM_symbolAt_reads (t := t) List.drop_zero
    simp only [bind, Except.bind, hreads]
    cases readSymbols? t <;> rfl
  | output =>
    rw [Kind.deriveByPass, placePass, h.pass, derive_output h]
    have hwrites := mapM_symbolAt_writes (t := t) List.drop_zero
    simp only [bind, Except.bind, hwrites]
    rfl

theorem deriveByPass_eq (t : Trace) (program : Program) (k : Kind) :
    k.deriveByPass t program = k.derive t program := by
  by_cases h : t.Unpadded
  · exact h.deriveByPass k program
  · obtain ⟨i, hi⟩ := exists_firstEarlyIdle h
    by_cases hk : k = .processor
    · subst hk
      rfl
    · rw [hi.derive program hk, hi.deriveByPass program hk]

theorem readSymbols?_eq_none_iff (t : Trace) :
    t.readSymbols? = none ↔ ∃ r ∈ List.getLast? t, r.executes .read := by
  induction t with
  | nil => simp [readSymbols?]
  | cons r rest ih =>
    cases rest with
    | nil => by_cases hread : r.executes .read <;> simp [readSymbols?, hread]
    | cons s rest =>
      rw [List.getLast?_cons_cons, ← ih, readSymbols?]
      by_cases hread : r.executes .read
      · rw [if_pos hread, List.head?_cons]
        cases readSymbols? (s :: rest) <;> simp
      · rw [if_neg hread]

theorem Unpadded.derive_input_of_unseen (h : t.Unpadded) (hnone : t.readSymbols? = none)
    (program : Program) : Kind.input.derive t program = .error .unseenSymbol := by
  rw [Kind.derive, requireUnpadded_eq_ok_iff.mpr h, hnone]
  rfl

/-- From a trace that idles in its last row at most, all rows can be derived, unless the last row
reads. -/
theorem Unpadded.derive_eq_ok (h : t.Unpadded) (program : Program)
    (hk : k = .input → ¬∃ r ∈ List.getLast? t, r.executes .read) :
    ∃ rows, k.derive t program = .ok rows := by
  cases k with
  | processor => exact ⟨_, derive_processor t program⟩
  | instruction => exact ⟨_, derive_instruction h program⟩
  | memory => exact ⟨_, derive_memory h program⟩
  | output => exact ⟨_, derive_output h program⟩
  | input =>
    obtain ⟨symbols, hsymbols⟩ :=
      Option.ne_none_iff_exists'.mp (mt (readSymbols?_eq_none_iff t).mp (hk rfl))
    exact ⟨_, derive_input h hsymbols program⟩

/-- All derivations judge a trace alike. If a row other than the last idles, all but the processor's
fail and name the first such row; otherwise the only failure is that of the input table where the
last row reads. -/
theorem derivations_agree (t : Trace) (program : Program) :
    (∀ k : Kind, k.derive t program = k.deriveByPass t program) ∧
      (∃ rows, Kind.processor.derive t program = .ok rows) ∧
      (¬t.Unpadded → ∃ i, t.FirstEarlyIdle i ∧ ∀ k ≠ Kind.processor,
        k.derive t program = .error (.malformed ⟨k, i, t⟩)) ∧
      (t.Unpadded →
        (∀ (k : Kind) (m : MalformedTrace), k.derive t program ≠ .error (.malformed m)) ∧
        (Kind.input.derive t program = .error .unseenSymbol ↔
          ∃ r ∈ List.getLast? t, r.executes .read) ∧
        ∀ k : Kind, (k = .input → ¬∃ r ∈ List.getLast? t, r.executes .read) →
          ∃ rows, k.derive t program = .ok rows) := by
  refine ⟨fun k => (deriveByPass_eq t program k).symm, ⟨_, derive_processor t program⟩, ?_, ?_⟩
  · intro hpadded
    obtain ⟨i, hi⟩ := exists_firstEarlyIdle hpadded
    exact ⟨i, hi, fun k hk => hi.derive program hk⟩
  · intro h
    have hunseen (hlast : ∃ r ∈ List.getLast? t, r.executes .read) :=
      h.derive_input_of_unseen ((readSymbols?_eq_none_iff t).mpr hlast) program
    refine ⟨?_, ⟨?_, hunseen⟩, fun k => h.derive_eq_ok program⟩
    · intro k m hm
      by_cases hk : k = .input → ¬∃ r ∈ List.getLast? t, r.executes .read
      · obtain ⟨rows, hrows⟩ := h.derive_eq_ok program hk
        rw [hrows] at hm
        cases hm
      · rw [Classical.not_imp, not_not] at hk
        obtain ⟨rfl, hlast⟩ := hk
        rw [hunseen hlast] at hm
        cases hm
    · intro herror
      by_contra hlast
      obtain ⟨rows, hrows⟩ := h.derive_eq_ok (k := .input) program fun _ => hlast
      rw [hrows] at herror
      cases herror

theorem derivations_agree_idle_read :
    let idle : Register Goldilocks := ⟨0, 0, 0, 0, 0, 0, 0⟩
    let read : Register Goldilocks := ⟨1, 0, Instruction.read.code, 0, 0, 0, 0⟩
    (∃ rows, Kind.input.derive [idle] #[] = .ok rows) ∧
      Kind.input.derive [read] #[] = .error .unseenSymbol ∧
      (∃ rows, Kind.memory.derive [read, idle] #[] = .ok rows) ∧
      ∀ k ≠ Kind.processor,
        k.derive [idle, read] #[] = .error (.malformed ⟨k, 0, [idle, read]⟩) := by
  intro idle read
  obtain ⟨-, -, -, hidle⟩ := derivations_agree [idle] #[]
  obtain ⟨-, -, -, hread⟩ := derivations_agree [read] #[]
  obtain ⟨-, -, -, hboth⟩ := derivations_agree [read, idle] #[]
  obtain ⟨-, -, hpadded, -⟩ := derivations_agree [idle, read] #[]
  obtain ⟨i, hi, herror⟩ := hpadded (by decide)
  obtain rfl : i = 0 := Nat.lt_one_iff.mp (Nat.lt_of_succ_lt_succ hi.inside)
  exact ⟨(hidle (by decide)).2.2 _ fun _ => by decide, (hread (by decide)).2.1.mpr (by decide),
    (hboth (by decide)).2.2 _ nofun, herror⟩

end Trace

end TapeAir
