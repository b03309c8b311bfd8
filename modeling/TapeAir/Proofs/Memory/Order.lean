import TapeAir.Proofs.Constraint.Counting
import TapeAir.Proofs.Constraint.Memory
/-! # The order of an accepted memory matrix

The six local constraints make a global order: pointers never fall, the rows of one pointer stand
together, and their cycles count up one by one. In a matrix with fewer rows than the field has
elements nothing wraps around, so a cycle and a pointer determine the row.
-/
namespace TapeAir.MemoryRow

structure Ordered (rows : List (MemoryRow Goldilocks)) : Prop where
  starts : ∀ r, rows[0]? = some r → Starts r
  follows : ∀ i r s, rows[i]? = some r → rows[i + 1]? = some s → Follows r s
  short : rows.length < Goldilocks.modulus

theorem Ordered.of_accepts {rows : List (MemoryRow Goldilocks)}
    (h : Kind.memory.Accepts (rows.map toList)) (hlen : rows.length < Goldilocks.modulus) :
    Ordered rows := by
  refine ⟨?_, ?_, hlen⟩
  · intro r hr
    exact (boundary_eq_zero_iff r).mp (layout.boundary_of_accepts h hr)
  · intro i r s hr hs
    exact (transition_eq_zero_iff r s).mp (layout.transition_of_accepts h hr hs)

namespace Ordered
variable {rows : List (MemoryRow Goldilocks)} (h : Ordered rows)
include h

theorem lt_modulus {i : ℕ} {r : MemoryRow Goldilocks} (hr : rows[i]? = some r) :
    i < Goldilocks.modulus :=
  (List.getElem?_eq_some_iff.mp hr).1.trans h.short

theorem predecessor {i : ℕ} {s : MemoryRow Goldilocks} (hs : rows[i + 1]? = some s) :
    ∃ r, rows[i]? = some r ∧ Follows r s := by
  obtain ⟨r, hr⟩ := exists_row_of_le (Nat.le_succ i) hs
  exact ⟨r, hr, h.follows i r s hr hs⟩

theorem countsUp : CountsUp memoryPointer rows where
  starts r hr := (h.starts r hr).pointer
  steps i r s hr hs := (h.follows i r s hr hs).pointer
  short := h.short

theorem cycle_eq {i j : ℕ} {r s : MemoryRow Goldilocks} (hij : i ≤ j)
    (hr : rows[i]? = some r) (hs : rows[j]? = some s)
    (he : r.memoryPointer = s.memoryPointer) :
    s.cycle = r.cycle + ((j - i : ℕ) : Goldilocks) := by
  induction j, hij using Nat.le_induction generalizing s with
  | base => simp [Option.some.inj (hr.symm.trans hs)]
  | succ j hij ih =>
    obtain ⟨q, hq, hqs⟩ := h.predecessor hs
    have hp := h.countsUp.eq_between hij (Nat.le_succ j) hr hq hs he
    rw [hqs.cycle (he.symm.trans hp.symm), ih hq hp.symm, Nat.succ_sub hij]
    push_cast
    ring

theorem index_eq {i j : ℕ} {r s : MemoryRow Goldilocks} (hr : rows[i]? = some r)
    (hs : rows[j]? = some s) (hp : r.memoryPointer = s.memoryPointer)
    (hc : r.cycle = s.cycle) : i = j := by
  wlog hij : i ≤ j generalizing i j r s
  · exact (this hs hr hp.symm hc.symm (by omega)).symm
  have hzero : ((j - i : ℕ) : Goldilocks) = (0 : ℕ) := by
    have := h.cycle_eq hij hr hs hp
    rw [← hc] at this
    simpa using this.symm
  have := Goldilocks.natCast_inj_of_lt (by have := h.lt_modulus hs; omega)
    Goldilocks.modulus_pos hzero
  omega

/-- Some cycle is missing: the field has more elements than the matrix has rows. -/
theorem exists_free_cycle : ∃ k < Goldilocks.modulus, ∀ (i : ℕ) (r : MemoryRow Goldilocks),
    rows[i]? = some r → r.cycle ≠ k := by
  by_contra! hall
  have hsurj : Function.Surjective fun i : Fin rows.length => rows[i].cycle := by
    intro x
    obtain ⟨i, r, hr, hx⟩ := hall x.val x.val_lt
    obtain ⟨hi, rfl⟩ := List.getElem?_eq_some_iff.mp hr
    exact ⟨⟨i, hi⟩, hx.trans x.natCast_val⟩
  have hcard := Nat.card_le_card_of_surjective _ hsurj
  rw [Goldilocks.card_eq, Nat.card_eq_fintype_card, Fintype.card_fin] at hcard
  exact absurd h.short (Nat.not_lt.mpr hcard)

end Ordered

structure LastAccess (rows : List (MemoryRow Goldilocks)) (i j : ℕ)
    (r s : MemoryRow Goldilocks) : Prop where
  lt : i < j
  row : rows[i]? = some r
  pointer : r.memoryPointer = s.memoryPointer
  access : r.interweaved = 0
  gap : ∀ k q, i < k → k < j → rows[k]? = some q → q.interweaved ≠ 0

/-- An interweaved stretch keeps the value of its first row, up to the row after it. -/
theorem Ordered.value_held {rows : List (MemoryRow Goldilocks)} (h : Ordered rows) {i j : ℕ}
    {r s : MemoryRow Goldilocks} (hij : i ≤ j) (hr : rows[i]? = some r) (hs : rows[j]? = some s)
    (hgap : ∀ k q, i ≤ k → k < j → rows[k]? = some q → q.interweaved ≠ 0) :
    s.memoryValue = r.memoryValue := by
  induction j, hij using Nat.le_induction generalizing s with
  | base => rw [Option.some.inj (hr.symm.trans hs)]
  | succ j hij ih =>
    obtain ⟨q, hq, hqs⟩ := h.predecessor hs
    have hheld := hqs.held_value (hgap j q hij (Nat.lt_succ_self j) hq)
    exact hheld.trans (ih hq fun k u hik hkj => hgap k u hik (Nat.lt_succ_of_lt hkj))

/-- A row has a last access of its pointer before it, or no access at all and the value zero. -/
theorem Ordered.lastAccess {rows : List (MemoryRow Goldilocks)} (h : Ordered rows) {j : ℕ}
    {s : MemoryRow Goldilocks} (hs : rows[j]? = some s) :
    (∃ i r, LastAccess rows i j r s) ∨
    (∀ i r, i < j → rows[i]? = some r → r.memoryPointer = s.memoryPointer →
      r.interweaved ≠ 0) ∧ s.memoryValue = 0 := by
  induction j generalizing s with
  | zero => exact .inr ⟨fun i r hi => absurd hi (Nat.not_lt_zero i), (h.starts s hs).value⟩
  | succ j ih =>
    obtain ⟨q, hq, hqs⟩ := h.predecessor hs
    by_cases hp : s.memoryPointer = q.memoryPointer
    · by_cases hi : q.interweaved = 0
      · refine .inl ⟨j, q, Nat.lt_succ_self j, hq, hp.symm, hi, ?_⟩
        intro k _ hjk hkj
        omega
      · rcases ih hq with ⟨i, r, hr⟩ | ⟨hnone, hzero⟩
        · refine .inl ⟨i, r, hr.lt.trans (Nat.lt_succ_self j), hr.row, hr.pointer.trans hp.symm,
            hr.access, ?_⟩
          intro k u hik hkj hu
          rcases Nat.lt_succ_iff_lt_or_eq.mp hkj with hk | rfl
          · exact hr.gap k u hik hk hu
          · rwa [← Option.some.inj (hq.symm.trans hu)]
        · refine .inr ⟨?_, (hqs.held_value hi).trans hzero⟩
          intro i r hij hr hrp
          rcases Nat.lt_succ_iff_lt_or_eq.mp hij with hk | rfl
          · exact hnone i r hk hr (hrp.trans hp)
          · rwa [← Option.some.inj (hq.symm.trans hr)]
    · refine .inr ⟨?_, hqs.fresh hp⟩
      intro i r hij hr hrp
      have hm := h.countsUp.val_mono (Nat.lt_succ_iff.mp hij) hr hq
      have hstep := h.countsUp.val_step hq hs
      have hne : s.memoryPointer.val ≠ q.memoryPointer.val := fun he => hp (Goldilocks.ext he)
      rw [hrp] at hm
      omega

end TapeAir.MemoryRow
