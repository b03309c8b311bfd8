import TapeAir.Proofs.Memory.Order
/-! # Accepted memory matrices are gap-free

The constraints look at two neighbouring rows. Over a whole matrix they say that the rows come in
groups, one for each pointer from zero on, that the cycles of a group have no gap, and that the
flags are bits which hold pointer and value. Each step of a matrix stays in its group or opens the
next one, so the groups are read off from the front; in fewer rows than the field has elements their
pointers do not wrap around.
-/
namespace TapeAir.MemoryRow

def Steps (r s : MemoryRow Goldilocks) : Prop :=
  s.memoryPointer = r.memoryPointer ∧ s.cycle = r.cycle + 1 ∨
    s.memoryPointer = r.memoryPointer + 1 ∧ s.memoryValue = 0

def Holds (r s : MemoryRow Goldilocks) : Prop :=
  r.interweaved ≠ 0 → s.memoryPointer = r.memoryPointer ∧ s.memoryValue = r.memoryValue

structure Group (pointer : ℕ) (rows : List (MemoryRow Goldilocks)) : Prop where
  nonempty : rows ≠ []
  pointers : ∀ r ∈ rows, r.memoryPointer.val = pointer
  cycles : rows.IsChain fun r s => s.cycle = r.cycle + 1

/-- Groups with ascending pointers. Each but the first of them starts at value zero. -/
structure Groups (pointer : ℕ) (groups : List (List (MemoryRow Goldilocks))) : Prop where
  group : ∀ i g, groups[i]? = some g → Group (pointer + i) g
  fresh : ∀ i g, groups[i + 1]? = some g → ∀ r ∈ g.head?, r.memoryValue = 0

/-- What the constraints accept: groups with the pointers from zero on, and flags that hold. -/
structure GapFree (rows : List (MemoryRow Goldilocks)) : Prop where
  starts : ∃ r ∈ rows.head?, r.cycle = 0 ∧ r.memoryPointer = 0 ∧ r.memoryValue = 0
  groups : ∃ groups, rows = groups.flatten ∧ Groups 0 groups
  flags : ∀ r ∈ rows.tail, r.interweaved = 0 ∨ r.interweaved = 1
  holds : rows.IsChain Holds

theorem follows_iff (r s : MemoryRow Goldilocks) :
    Follows r s ↔ Steps r s ∧ (s.interweaved = 0 ∨ s.interweaved = 1) ∧ Holds r s := by
  constructor
  · intro h
    refine ⟨?_, h.flag, fun hi => ⟨h.held_pointer hi, h.held_value hi⟩⟩
    by_cases hp : s.memoryPointer = r.memoryPointer
    · exact .inl ⟨hp, h.cycle hp⟩
    · exact .inr ⟨h.pointer.resolve_left hp, h.fresh hp⟩
  · rintro ⟨hsteps, hflag, hholds⟩
    have hup (hnext : s.memoryPointer = r.memoryPointer + 1) :
        s.memoryPointer ≠ r.memoryPointer := by
      rw [hnext]
      exact add_ne_left.mpr one_ne_zero
    refine ⟨hsteps.imp And.left And.left, ?_, fun hi => (hholds hi).1, fun hi => (hholds hi).2,
      hflag, ?_⟩
    · exact fun hp => (hsteps.resolve_right fun hnext => hup hnext.1 hp).2
    · exact fun hp => (hsteps.resolve_left fun hstay => hp hstay.1).2

/-- The flag of the first row is free: only those that follow a row are checked. -/
theorem isChain_follows_iff (rows : List (MemoryRow Goldilocks)) :
    rows.IsChain Follows ↔ rows.IsChain Steps ∧
      (∀ r ∈ rows.tail, r.interweaved = 0 ∨ r.interweaved = 1) ∧ rows.IsChain Holds := by
  induction rows with
  | nil => simp
  | cons r rows ih =>
    cases rows with
    | nil => simp
    | cons s rows =>
      simp only [List.isChain_cons_cons, List.tail_cons, List.forall_mem_cons, follows_iff, ih]
      tauto

section Grouping
variable {pointer : ℕ} {r s : MemoryRow Goldilocks} {g : List (MemoryRow Goldilocks)}
  {groups : List (List (MemoryRow Goldilocks))}

theorem Groups.singleton (h : Group pointer g) : Groups pointer [g] := by
  constructor
  · intro i q hi
    cases i with
    | zero => exact Option.some.inj hi ▸ h
    | succ i => cases hi
  · intro i q hi
    cases hi

theorem Groups.extend (h : Groups pointer (g :: groups)) (hr : r.memoryPointer.val = pointer)
    (hcycle : ∀ s ∈ g.head?, s.cycle = r.cycle + 1) : Groups pointer ((r :: g) :: groups) := by
  constructor
  · intro i q hi
    cases i with
    | zero =>
      obtain rfl := Option.some.inj hi
      have hg := h.group 0 g rfl
      refine ⟨List.cons_ne_nil r g, List.forall_mem_cons.mpr ⟨hr, hg.pointers⟩, ?_⟩
      exact List.isChain_cons.mpr ⟨hcycle, hg.cycles⟩
    | succ i => exact h.group (i + 1) q hi
  · intro i q hi
    exact h.fresh i q hi

theorem Groups.cons (h : Groups (pointer + 1) (g :: groups)) {q : List (MemoryRow Goldilocks)}
    (hq : Group pointer q) (hfresh : ∀ s ∈ g.head?, s.memoryValue = 0) :
    Groups pointer (q :: g :: groups) := by
  constructor
  · intro i p hi
    cases i with
    | zero => exact Option.some.inj hi ▸ hq
    | succ i => simpa only [Nat.add_assoc, Nat.add_comm 1] using h.group i p hi
  · intro i p hi
    cases i with
    | zero => exact Option.some.inj hi ▸ hfresh
    | succ i => exact h.fresh i p hi

/-- A chain of steps splits into groups. The first row of what is left tells whether a row belongs
to the group after it, so the induction carries the first group. -/
theorem exists_groups {r : MemoryRow Goldilocks} {rows : List (MemoryRow Goldilocks)}
    (hsteps : (r :: rows).IsChain Steps)
    (hshort : r.memoryPointer.val + rows.length < Goldilocks.modulus) :
    ∃ g groups, rows = g ++ groups.flatten ∧
      Groups r.memoryPointer.val ((r :: g) :: groups) := by
  induction rows generalizing r with
  | nil => exact ⟨[], [], rfl, .singleton ⟨by simp, by simp, by simp⟩⟩
  | cons s rows ih =>
    obtain ⟨hstep, hrest⟩ := List.isChain_cons_cons.mp hsteps
    rw [List.length_cons] at hshort
    rcases hstep with ⟨hp, hcycle⟩ | ⟨hp, hvalue⟩
    · rw [← hp] at hshort ⊢
      obtain ⟨g, groups, rfl, hgroups⟩ := ih hrest (by omega)
      refine ⟨s :: g, groups, rfl, hgroups.extend (by rw [hp]) ?_⟩
      simpa using hcycle
    · have hval : s.memoryPointer.val = r.memoryPointer.val + 1 := by
        rw [hp, Goldilocks.val_add, Goldilocks.val_one, Nat.mod_eq_of_lt (by omega)]
      obtain ⟨g, groups, rfl, hgroups⟩ := ih hrest (by omega)
      rw [hval] at hgroups
      refine ⟨[], (s :: g) :: groups, rfl, hgroups.cons ⟨by simp, by simp, by simp⟩ ?_⟩
      simpa using hvalue

theorem Group.isChain_steps (h : Group pointer g) : g.IsChain Steps := by
  refine h.cycles.imp_of_mem_imp fun r s hr hs hcycle => .inl ⟨?_, hcycle⟩
  exact Goldilocks.ext ((h.pointers s hs).trans (h.pointers r hr).symm)

theorem Groups.isChain_steps (h : Groups pointer groups) : groups.flatten.IsChain Steps := by
  have hmem {g : List (MemoryRow Goldilocks)} (hg : g ∈ groups) : ∃ i, Group i g := by
    obtain ⟨i, hi⟩ := List.mem_iff_getElem?.mp hg
    exact ⟨pointer + i, h.group i g hi⟩
  have hne : [] ∉ groups := fun hnil => (hmem hnil).choose_spec.nonempty rfl
  rw [List.isChain_flatten hne]
  refine ⟨fun g hg => (hmem hg).choose_spec.isChain_steps, ?_⟩
  rw [List.isChain_iff_getElem]
  intro i hi r hr s hs
  have hfirst := List.getElem?_eq_getElem (show i < groups.length by omega)
  have hsecond := List.getElem?_eq_getElem hi
  have hrp := (h.group i _ hfirst).pointers r (List.mem_of_mem_getLast? hr)
  have hsp := (h.group (i + 1) _ hsecond).pointers s (List.mem_of_mem_head? hs)
  refine .inr ⟨Goldilocks.ext ?_, h.fresh i _ hsecond s hs⟩
  have hlt := s.memoryPointer.val_lt
  rw [Goldilocks.val_add, Goldilocks.val_one, Nat.mod_eq_of_lt (by omega), hrp, hsp]
  omega

end Grouping

theorem accepts_iff_gapFree {rows : List (MemoryRow Goldilocks)}
    (hshort : rows.length < Goldilocks.modulus) :
    Kind.memory.Accepts (rows.map toList) ↔ GapFree rows := by
  have haccepts : Kind.memory.Accepts (rows.map toList) ↔
      rows.IsChain Follows ∧ ∃ r ∈ rows.head?, Starts r := by
    refine (layout.accepts_iff rows).trans (and_congr (List.IsChain.iff ?_) ?_)
    · exact transition_eq_zero_iff
    · exact exists_congr fun r => and_congr_right fun _ => boundary_eq_zero_iff r
  rw [haccepts, isChain_follows_iff]
  constructor
  · rintro ⟨⟨hsteps, hflags, hholds⟩, r, hr, hstarts⟩
    refine ⟨⟨r, hr, hstarts.cycle, hstarts.pointer, hstarts.value⟩, ?_, hflags, hholds⟩
    obtain ⟨rest, rfl⟩ := List.head?_eq_some_iff.mp hr
    have hzero : r.memoryPointer.val = 0 := by rw [hstarts.pointer, Goldilocks.val_zero]
    rw [List.length_cons] at hshort
    obtain ⟨g, groups, rfl, hgroups⟩ := exists_groups hsteps (by omega)
    exact ⟨(r :: g) :: groups, rfl, hzero ▸ hgroups⟩
  · rintro ⟨⟨r, hr, hcycle, hpointer, hvalue⟩, ⟨groups, rfl, hgroups⟩, hflags, hholds⟩
    exact ⟨⟨hgroups.isChain_steps, hflags, hholds⟩, r, hr, hcycle, hpointer, hvalue⟩

theorem Ordered.nodup {rows : List (MemoryRow Goldilocks)} (h : Ordered rows) :
    (rows.map fun r => (r.cycle, r.memoryPointer)).Nodup := by
  rw [List.nodup_iff_injective_getElem]
  intro i j hij
  simp only [List.getElem_map, Prod.mk.injEq] at hij
  have hi := List.getElem?_eq_getElem (show i.val < rows.length by simpa using i.isLt)
  have hj := List.getElem?_eq_getElem (show j.val < rows.length by simpa using j.isLt)
  exact Fin.ext (h.index_eq hi hj hij.2 hij.1)

/-- A memory matrix with fewer rows than the field has elements is accepted exactly when it is
gap-free. Then no cycle comes twice with the same pointer. -/
theorem accepted_gapFree {rows : List (MemoryRow Goldilocks)}
    (hshort : rows.length < Goldilocks.modulus) :
    (Kind.memory.Accepts (rows.map toList) ↔ GapFree rows) ∧
      (Kind.memory.Accepts (rows.map toList) →
        (rows.map fun r => (r.cycle, r.memoryPointer)).Nodup) :=
  ⟨accepts_iff_gapFree hshort, fun h => (Ordered.of_accepts h hshort).nodup⟩

def twoGroups : List (MemoryRow Goldilocks) :=
  [⟨0, 0, 0, 0⟩, ⟨1, 0, (5 : ℕ), 1⟩, ⟨(2 : ℕ), 0, (5 : ℕ), 0⟩, ⟨(7 : ℕ), 1, 0, 0⟩]

theorem twoGroups_gapFree :
    GapFree twoGroups ∧ (twoGroups.map fun r => (r.cycle, r.memoryPointer)).Nodup := by
  have haccepts : Kind.memory.Accepts (twoGroups.map toList) := by
    refine (layout.accepts_iff twoGroups).mpr ⟨?_, _, rfl, ?_⟩
    · simp [twoGroups, layout, transition]
      decide
    · simp [layout, boundary]
  have h := accepted_gapFree (show twoGroups.length < Goldilocks.modulus by decide)
  exact ⟨h.1.mp haccepts, h.2 haccepts⟩

end TapeAir.MemoryRow
