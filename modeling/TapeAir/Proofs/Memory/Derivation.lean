import Mathlib.Data.List.Chain
import TapeAir.Proofs.Constraint.Memory
import TapeAir.Proofs.Table.Padding
import TapeAir.Proofs.Table.Sorting
/-! # Sorted and filled accesses

Sorting by pointer keeps the accesses of one pointer in time order. Filling the gaps between them,
and padding behind them, always keeps to the memory constraints inside the inserted rows; so whether
the matrix is accepted is decided by the pointers alone.
-/
namespace TapeAir.MemoryRow

def Before (r s : MemoryRow Goldilocks) : Prop :=
  r.memoryPointer.val < s.memoryPointer.val ∨
    r.memoryPointer = s.memoryPointer ∧ r.cycle.val < s.cycle.val

theorem Before.asymm {r s : MemoryRow Goldilocks} (h : Before r s) : ¬Before s r := by
  rintro (hlt | ⟨heq, hlt⟩) <;> rcases h with h | ⟨he, h⟩
  · omega
  · rw [he] at hlt
    omega
  · rw [heq] at h
    omega
  · omega

section Sorting
variable {rows : List (MemoryRow Goldilocks)}

/-- The sort is stable, so accesses of one pointer stay in time order. -/
theorem pairwise_before_sortBy (h : rows.Pairwise fun r s => r.cycle.val < s.cycle.val) :
    (sortBy memoryPointer rows).Pairwise Before := by
  refine List.pairwise_of_forall_sublist fun {r s} hrs => ?_
  have hle := (sortBy_pairwise memoryPointer rows).forall_sublist hrs
  by_cases hp : r.memoryPointer = s.memoryPointer
  · have hfilter := hrs.filter (·.memoryPointer = s.memoryPointer)
    rw [filter_sortBy] at hfilter
    simp only [List.filter_cons, hp, decide_true, if_true, List.filter_nil] at hfilter
    exact .inr ⟨hp, h.forall_sublist (hfilter.trans List.filter_sublist)⟩
  · exact .inl (lt_of_le_of_ne hle fun he => hp (Goldilocks.ext he))

theorem eq_or_before (h : rows.Pairwise Before) {k : ℕ} {q s u : MemoryRow Goldilocks}
    (hq : rows[k]? = some q) (hs : rows[k + 1]? = some s) (hu : u ∈ rows) (hus : Before u s) :
    u = q ∨ Before u q := by
  have hget {i j : ℕ} {a b : MemoryRow Goldilocks} (hij : i < j) (ha : rows[i]? = some a)
      (hb : rows[j]? = some b) : Before a b := by
    obtain ⟨_, rfl⟩ := List.getElem?_eq_some_iff.mp ha
    obtain ⟨_, rfl⟩ := List.getElem?_eq_some_iff.mp hb
    exact List.pairwise_iff_getElem.mp h i j _ _ hij
  obtain ⟨j, hj⟩ := List.mem_iff_getElem?.mp hu
  rcases Nat.lt_trichotomy j k with hjk | rfl | hkj
  · exact .inr (hget hjk hj hq)
  · exact .inl (Option.some.inj (hj.symm.trans hq))
  · rcases Nat.lt_or_eq_of_le (Nat.succ_le_of_lt hkj) with hkj | rfl
    · exact absurd hus (hget hkj hs hj).asymm
    · obtain rfl := Option.some.inj (hs.symm.trans hj)
      exact absurd hus hus.asymm

theorem head?_sortBy (h : rows.Pairwise fun r s => r.cycle.val < s.cycle.val)
    {r : MemoryRow Goldilocks} (hr : r ∈ rows) (hpointer : r.memoryPointer = 0)
    (hcycle : r.cycle = 0) : (sortBy memoryPointer rows).head? = some r := by
  have hpairwise := pairwise_before_sortBy h
  have hmem := (mem_sortBy memoryPointer).mpr hr
  cases hsorted : sortBy memoryPointer rows with
  | nil =>
    rw [hsorted] at hmem
    cases hmem
  | cons q rest =>
    rw [hsorted] at hmem hpairwise
    rcases List.mem_cons.mp hmem with rfl | hrest
    · rfl
    · rcases (List.pairwise_cons.mp hpairwise).1 r hrest with hlt | ⟨-, hlt⟩
      · rw [hpointer] at hlt
        exact absurd hlt (Nat.not_lt_zero _)
      · rw [hcycle] at hlt
        exact absurd hlt (Nat.not_lt_zero _)

end Sorting

def repeats (r : MemoryRow Goldilocks) (n : ℕ) : List (MemoryRow Goldilocks) :=
  (List.range n).map fun k => r.repeated (k + 1)

theorem gap_eq {r s : MemoryRow Goldilocks} (h : s.memoryPointer = r.memoryPointer) :
    gap r s = r.repeats (s.cycle - r.cycle - 1).val :=
  if_pos h

theorem gap_eq_nil {r s : MemoryRow Goldilocks} (h : s.memoryPointer ≠ r.memoryPointer) :
    gap r s = [] :=
  if_neg h

theorem repeats_succ (r : MemoryRow Goldilocks) (n : ℕ) :
    r.repeats (n + 1) = r.repeats n ++ [r.repeated (n + 1)] := by
  rw [repeats, List.range_succ, List.map_append]
  rfl

def lastRepeat (r : MemoryRow Goldilocks) : ℕ → MemoryRow Goldilocks
  | 0 => r
  | n + 1 => r.repeated (n + 1)

theorem getLast?_repeats (r : MemoryRow Goldilocks) (n : ℕ) :
    (r :: r.repeats n).getLast? = some (r.lastRepeat n) := by
  cases n with
  | zero => rfl
  | succ n => rw [repeats_succ, ← List.cons_append, List.getLast?_concat, lastRepeat]

theorem lastRepeat_pointer (r : MemoryRow Goldilocks) (n : ℕ) :
    (r.lastRepeat n).memoryPointer = r.memoryPointer := by
  cases n <;> rfl

theorem lastRepeat_value (r : MemoryRow Goldilocks) (n : ℕ) :
    (r.lastRepeat n).memoryValue = r.memoryValue := by
  cases n <;> rfl

theorem lastRepeat_cycle (r : MemoryRow Goldilocks) (n : ℕ) :
    (r.lastRepeat n).cycle = r.cycle + (n : Goldilocks) := by
  cases n <;> simp [lastRepeat, repeated]

theorem isChain_repeats (r : MemoryRow Goldilocks) (n : ℕ) :
    (r :: r.repeats n).IsChain Follows := by
  induction n with
  | zero => exact List.isChain_singleton r
  | succ n ih =>
    rw [repeats_succ, ← List.cons_append, List.isChain_append]
    refine ⟨ih, List.isChain_singleton _, ?_⟩
    intro q hq s hs
    rw [getLast?_repeats] at hq
    obtain rfl := Option.some.inj hq
    obtain rfl := Option.some.inj hs
    have hpointer := r.lastRepeat_pointer n
    have hvalue := r.lastRepeat_value n
    refine ⟨.inl hpointer.symm, ?_, fun _ => hpointer.symm, fun _ => hvalue.symm, .inr rfl, ?_⟩
    · intro _
      rw [lastRepeat_cycle, repeated]
      push_cast
      ring
    · intro hne
      exact absurd hpointer.symm hne

structure Fits (r s : MemoryRow Goldilocks) : Prop where
  open_left : r.interweaved = 0
  open_right : s.interweaved = 0
  held : s.memoryPointer = r.memoryPointer → s.cycle ≠ r.cycle + 1 → s.memoryValue = r.memoryValue
  fresh : s.memoryPointer ≠ r.memoryPointer → s.memoryValue = 0

def Adjoins (r s : MemoryRow Goldilocks) : Prop :=
  s.memoryPointer = r.memoryPointer ∨ s.memoryPointer = r.memoryPointer + 1

/-- Between accesses that fit, the constraints ask only that the pointers adjoin. -/
theorem Fits.follows_iff {r s : MemoryRow Goldilocks} (h : Fits r s) :
    (∀ q ∈ (r :: gap r s).getLast?, Follows q s) ↔ Adjoins r s := by
  by_cases hp : s.memoryPointer = r.memoryPointer
  · refine iff_of_true ?_ (.inl hp)
    intro q hq
    rw [gap_eq hp, getLast?_repeats] at hq
    obtain rfl := Option.some.inj hq
    generalize hn : (s.cycle - r.cycle - 1).val = n
    have hcycle : s.cycle = r.cycle + (n : Goldilocks) + 1 := by
      rw [← hn, Goldilocks.natCast_val]
      ring
    have hpointer := r.lastRepeat_pointer n
    refine ⟨.inl (hp.trans hpointer.symm), fun _ => by rw [hcycle, lastRepeat_cycle],
      fun _ => hp.trans hpointer.symm, ?_, .inl h.open_right,
      fun hne => absurd (hp.trans hpointer.symm) hne⟩
    cases n with
    | zero => exact fun hne => absurd h.open_left hne
    | succ n =>
      intro _
      refine h.held hp fun hone => ?_
      have hzero : ((n + 1 : ℕ) : Goldilocks) = (0 : ℕ) := by
        rw [hcycle, add_assoc, add_right_inj, add_eq_right] at hone
        simpa using hone
      have := Goldilocks.natCast_inj_of_lt (hn ▸ Goldilocks.val_lt _) Goldilocks.modulus_pos hzero
      omega
  · rw [gap_eq_nil hp]
    constructor
    · intro hfollows
      exact (hfollows r rfl).pointer
    · rintro hadjoins q hq
      obtain rfl := Option.some.inj hq
      exact ⟨hadjoins, fun he => absurd he hp, fun hne => absurd h.open_left hne,
        fun hne => absurd h.open_left hne, .inl h.open_right, fun _ => h.fresh hp⟩

theorem head?_interweave (rows : List (MemoryRow Goldilocks)) :
    (interweave rows).head? = rows.head? := by
  cases rows with
  | nil => rfl
  | cons r rows => cases rows <;> rfl

theorem isChain_interweave {rows : List (MemoryRow Goldilocks)} (h : rows.IsChain Fits) :
    (interweave rows).IsChain Follows ↔ rows.IsChain Adjoins := by
  induction rows with
  | nil => exact iff_of_true .nil .nil
  | cons r rows ih =>
    cases rows with
    | nil => exact iff_of_true (.singleton r) (.singleton r)
    | cons s rest =>
      obtain ⟨hfits, hrest⟩ := List.isChain_cons_cons.mp h
      have hgap : (r :: gap r s).IsChain Follows := by
        by_cases hp : s.memoryPointer = r.memoryPointer
        · rw [gap_eq hp]
          exact isChain_repeats r _
        · rw [gap_eq_nil hp]
          exact .singleton r
      rw [List.isChain_cons_cons, ← ih hrest, ← hfits.follows_iff, interweave, List.isChain_append,
        head?_interweave]
      constructor
      · rintro ⟨-, hchain, hjoin⟩
        exact ⟨fun q hq => hjoin q hq s rfl, hchain⟩
      · rintro ⟨hjoin, hchain⟩
        exact ⟨hgap, hchain, fun q hq u hu => Option.some.inj hu ▸ hjoin q hq⟩

theorem isChain_pad {rows : List (MemoryRow Goldilocks)} {r : MemoryRow Goldilocks}
    (h : rows.getLast? = some r) (n : ℕ) :
    (rows ++ filling.extra r n).IsChain Follows ↔ rows.IsChain Follows :=
  (filling.isChain_append_extra h n).trans (and_iff_left (isChain_repeats r n))

/-- Pointers that never fall and start at `a` adjoin exactly when they are an interval. -/
theorem isChain_iff_interval (a : ℕ) (l : List ℕ) (h : (a :: l).Pairwise (· ≤ ·)) :
    ((a :: l).IsChain fun x y => y = x ∨ y = x + 1) ↔
      ∃ last, ∀ x, x ∈ a :: l ↔ a ≤ x ∧ x ≤ last := by
  induction l generalizing a with
  | nil =>
    refine iff_of_true (.singleton a) ⟨a, fun x => ?_⟩
    rw [List.mem_singleton]
    omega
  | cons b l ih =>
    obtain ⟨hle, hl⟩ := List.pairwise_cons.mp h
    have hab := hle b List.mem_cons_self
    have hbl := (List.pairwise_cons.mp hl).1
    rw [List.isChain_cons_cons, ih b hl]
    constructor
    · rintro ⟨hstep, last, hlast⟩
      have hb := (hlast b).mp List.mem_cons_self
      refine ⟨last, fun x => ?_⟩
      rw [List.mem_cons, hlast]
      omega
    · rintro ⟨last, hlast⟩
      have hmem (x : ℕ) : x ∈ b :: l → b ≤ x := by
        intro hx
        rcases List.mem_cons.mp hx with rfl | hx
        · exact le_rfl
        · exact hbl x hx
      have hb := (hlast b).mp (List.mem_cons_of_mem _ List.mem_cons_self)
      have hstep : b = a ∨ b = a + 1 := by
        by_contra hne
        rcases List.mem_cons.mp ((hlast (a + 1)).mpr ⟨by omega, by omega⟩) with hx | hx
        · omega
        · have := hmem _ hx
          omega
      refine ⟨hstep, last, fun x => ⟨fun hx => ⟨hmem x hx, ?_⟩, ?_⟩⟩
      · exact ((hlast x).mp (List.mem_cons_of_mem _ hx)).2
      · rintro ⟨hbx, hx⟩
        rcases List.mem_cons.mp ((hlast x).mpr ⟨by omega, hx⟩) with rfl | hmem
        · exact le_antisymm hab hbx ▸ List.mem_cons_self
        · exact hmem

theorem adjoins_iff_val {r s : MemoryRow Goldilocks}
    (h : r.memoryPointer.val ≤ s.memoryPointer.val) :
    Adjoins r s ↔ s.memoryPointer.val = r.memoryPointer.val ∨
      s.memoryPointer.val = r.memoryPointer.val + 1 := by
  have hval : (r.memoryPointer + 1).val = (r.memoryPointer.val + 1) % Goldilocks.modulus := by
    rw [Goldilocks.val_add, Goldilocks.val_one]
  have hs := s.memoryPointer.val_lt
  constructor
  · rintro (he | he)
    · exact .inl (congrArg _ he)
    · rw [he, hval] at h hs ⊢
      by_cases hwrap : r.memoryPointer.val + 1 < Goldilocks.modulus
      · exact .inr (Nat.mod_eq_of_lt hwrap)
      · have hr := r.memoryPointer.val_lt
        rw [show r.memoryPointer.val + 1 = Goldilocks.modulus by omega, Nat.mod_self] at h ⊢
        exact .inl (by omega)
  · rintro (he | he)
    · exact .inl (Goldilocks.ext he)
    · refine .inr (Goldilocks.ext ?_)
      rw [hval, he, Nat.mod_eq_of_lt (by omega)]

/-- Sorted rows from pointer zero on adjoin exactly when their pointers are an initial segment. -/
theorem isChain_adjoins_iff {rows : List (MemoryRow Goldilocks)} {q : MemoryRow Goldilocks}
    (hhead : rows.head? = some q) (hzero : q.memoryPointer = 0)
    (hsorted : rows.Pairwise fun r s => r.memoryPointer.val ≤ s.memoryPointer.val) :
    rows.IsChain Adjoins ↔
      ∃ last : ℕ, ∀ x : Goldilocks, (∃ r ∈ rows, r.memoryPointer = x) ↔ x.val ≤ last := by
  have hstep : rows.IsChain Adjoins ↔
      (rows.map (·.memoryPointer.val)).IsChain fun x y => y = x ∨ y = x + 1 := by
    rw [List.isChain_map, List.isChain_iff_getElem, List.isChain_iff_getElem]
    exact forall_congr' fun k => forall_congr' fun hk => adjoins_iff_val
      (List.pairwise_iff_getElem.mp hsorted k (k + 1) (by omega) hk (Nat.lt_succ_self k))
  obtain ⟨rest, rfl⟩ : ∃ rest, rows = q :: rest := by
    cases rows with
    | nil => cases hhead
    | cons r rest => exact ⟨rest, by rw [Option.some.inj hhead]⟩
  have hlist : (q :: rest).map (·.memoryPointer.val) = 0 :: rest.map (·.memoryPointer.val) := by
    rw [List.map_cons, hzero, Goldilocks.val_zero]
  have hmem (x : ℕ) : x ∈ 0 :: rest.map (·.memoryPointer.val) ↔
      ∃ r ∈ q :: rest, r.memoryPointer.val = x := by
    rw [← hlist]
    exact List.mem_map
  rw [hstep, hlist, isChain_iff_interval 0 _ (hlist ▸ List.pairwise_map.mpr hsorted)]
  simp only [hmem, Nat.zero_le, true_and]
  constructor
  · rintro ⟨last, hlast⟩
    refine ⟨last, fun x => ?_⟩
    rw [← hlast]
    simp only [Goldilocks.ext_iff]
  · rintro ⟨last, hlast⟩
    -- a natural number beyond the field is no pointer
    refine ⟨min last (Goldilocks.modulus - 1), fun x => ⟨?_, fun hx => ?_⟩⟩
    · rintro ⟨r, hr, rfl⟩
      have := (hlast r.memoryPointer).mp ⟨r, hr, rfl⟩
      have := r.memoryPointer.val_lt
      omega
    · have hval : (x : Goldilocks).val = x := Goldilocks.natCast_val_of_lt (by
        have := Goldilocks.modulus_pos
        omega)
      obtain ⟨r, hr, hrx⟩ := (hlast x).mpr (by omega)
      exact ⟨r, hr, hrx ▸ hval⟩

end TapeAir.MemoryRow
