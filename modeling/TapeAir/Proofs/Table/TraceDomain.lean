import TapeAir.Error
import TapeAir.Proofs.Field.RootOfUnity
/-! # The trace domain

The rows of a padded table are indexed by the powers of one element. Where the generator of the
evaluation domain has a power of two as its order, and the table is not higher than that, these
powers are as many as the rows. For a higher table the generator is one.
-/
namespace TapeAir.Outline
variable {o : Outline} {w : Goldilocks} {e : ℕ}

theorem exists_height (h : 1 ≤ o.length) : ∃ d : ℕ, o.height = 2 ^ d := by
  obtain ⟨n, hn⟩ := Int.eq_ofNat_of_zero_le (by omega : 0 ≤ o.length)
  rw [height, hn]
  exact isPowerOfTwo_nextPowerOfTwo (by omega)

theorem exists_height_le (h : 1 ≤ o.length) (horder : o.order = 2 ^ e)
    (hle : (o.height : ℤ) ≤ o.order) : ∃ d ≤ e, o.height = 2 ^ d := by
  obtain ⟨d, hd⟩ := exists_height h
  refine ⟨d, ?_, hd⟩
  rw [horder, hd] at hle
  have hpow : 2 ^ d ≤ 2 ^ e := by exact_mod_cast hle
  exact (Nat.pow_le_pow_iff_right Nat.one_lt_two).mp hpow

theorem omicron_eq (h : 1 ≤ o.length) :
    o.omicron = .ok (o.generator ^ (o.order / o.height).toNat) := by
  obtain ⟨d, hd⟩ := exists_height h
  have hne : o.height ≠ 0 := by
    rw [hd]
    positivity
  rw [omicron, omicron?, if_neg hne]

theorem toNat_two_pow_div {d : ℕ} (h : d ≤ e) :
    ((2 : ℤ) ^ e / (2 ^ d : ℕ)).toNat = 2 ^ (e - d) := by
  have hcast : (2 : ℤ) ^ e / (2 ^ d : ℕ) = (2 ^ e / 2 ^ d : ℕ) := by
    push_cast
    rfl
  rw [hcast, Int.toNat_natCast, Nat.pow_div h Nat.two_pos]

/-- A table that is not higher than the order gets a generator with as many powers as it has rows. -/
theorem orderOf_omicron (h : 1 ≤ o.length) (horder : o.order = 2 ^ e)
    (hgenerator : (orderOf o.generator : ℤ) = o.order) (hle : (o.height : ℤ) ≤ o.order)
    (hw : o.omicron = .ok w) : orderOf w = o.height := by
  obtain ⟨d, hde, hd⟩ := exists_height_le h horder hle
  have hgenerator : orderOf o.generator = 2 ^ e := by exact_mod_cast hgenerator.trans horder
  have hdvd : 2 ^ (e - d) ∣ orderOf o.generator := by
    rw [hgenerator]
    exact Nat.pow_dvd_pow 2 (Nat.sub_le e d)
  rw [omicron_eq h, horder, hd, toNat_two_pow_div hde] at hw
  obtain rfl := Except.ok.inj hw
  rw [orderOf_pow_of_dvd (by positivity) hdvd, hgenerator, hd,
    Nat.pow_div (Nat.sub_le e d) Nat.two_pos, Nat.sub_sub_self hde]

/-- Where the table is higher than the order, the quotient of the two is zero. -/
theorem omicron_of_order_lt (h : 1 ≤ o.length) (horder : o.order = 2 ^ e)
    (hlt : o.order < o.height) : o.omicron = .ok 1 := by
  have hnonneg : 0 ≤ o.order := by
    rw [horder]
    positivity
  rw [omicron_eq h, Int.ediv_eq_zero_of_lt hnonneg hlt, Int.toNat_zero, pow_zero]

/-- Over the greatest domain the generator of the rows is the root of unity for their number. -/
theorem rootOfUnity_height (h : 1 ≤ o.length) (horder : o.order = 2 ^ 32)
    (hgenerator : Goldilocks.rootOfUnity (2 ^ 32) = .ok o.generator)
    (hle : (o.height : ℤ) ≤ o.order) (hw : o.omicron = .ok w) :
    Goldilocks.rootOfUnity o.height = .ok w := by
  obtain ⟨d, hd32, hd⟩ := exists_height_le h horder hle
  rw [Goldilocks.rootOfUnity_two_pow le_rfl] at hgenerator
  rw [omicron_eq h, horder, hd, toNat_two_pow_div hd32, ← Except.ok.inj hgenerator,
    Goldilocks.root_pow (Nat.sub_le 32 d) le_rfl, Nat.sub_sub_self hd32] at hw
  rw [hd, Nat.cast_pow, Nat.cast_two, Goldilocks.rootOfUnity_two_pow hd32, Except.ok.inj hw]

/-- There are roots of unity for the powers of two up to `2 ^ 32` and for no other number, and each
has exactly the order that it is asked for. Likewise a table has a generator of exactly as many
powers as it has rows, if that number is not above the order of the evaluation domain. -/
theorem trace_domain_generators :
    (∀ n : ℤ, ((∃ w, Goldilocks.rootOfUnity n = .ok w) ↔ ∃ e ≤ 32, n = 2 ^ e) ∧
      (Goldilocks.rootOfUnity n = .error (.notPowerOfTwo n) ↔ ¬∃ e : ℕ, n = 2 ^ e) ∧
      (Goldilocks.rootOfUnity n = .error (.tooLarge n) ↔ ∃ e > 32, n = 2 ^ e) ∧
      ∀ w, Goldilocks.rootOfUnity n = .ok w → (orderOf w : ℤ) = n) ∧
    ∀ o : Outline, 1 ≤ o.length → (∃ e : ℕ, o.order = 2 ^ e) →
      (orderOf o.generator : ℤ) = o.order → ∃ w, o.omicron = .ok w ∧
        ((o.height : ℤ) ≤ o.order → orderOf w = o.height ∧
          Set.InjOn (fun i => w ^ i) (Set.Iio o.height)) ∧
        (o.order < o.height → w = 1) ∧
        (Goldilocks.rootOfUnity (2 ^ 32) = .ok o.generator → o.order = 2 ^ 32 →
          (o.height : ℤ) ≤ o.order → Goldilocks.rootOfUnity o.height = .ok w) := by
  constructor
  · intro n
    exact ⟨Goldilocks.exists_rootOfUnity_iff, Goldilocks.rootOfUnity_eq_notPowerOfTwo_iff,
      Goldilocks.rootOfUnity_eq_tooLarge_iff, fun _ => Goldilocks.orderOf_of_rootOfUnity⟩
  · rintro o h ⟨e, horder⟩ hgenerator
    obtain ⟨w, hw⟩ : ∃ w, o.omicron = .ok w := ⟨_, omicron_eq h⟩
    refine ⟨w, hw, ?_, ?_, ?_⟩
    · intro hle
      have hexact := orderOf_omicron h horder hgenerator hle hw
      refine ⟨hexact, ?_⟩
      rw [← hexact]
      exact pow_injOn_Iio_orderOf
    · intro hlt
      exact Except.ok.inj (hw.symm.trans (omicron_of_order_lt h horder hlt))
    · intro hroot hgreatest hle
      exact rootOfUnity_height h hgreatest hroot hle hw

theorem threeRows_trace_domain :
    let small : Outline := ⟨"", 1, 1, 3, 0, .root 3, 8⟩
    let high : Outline := { small with length := 9 }
    let wide : Outline := { small with generator := .root 32, order := 2 ^ 32 }
    Goldilocks.rootOfUnity 8 = .ok small.generator ∧ (orderOf small.generator : ℤ) = 8 ∧
      Goldilocks.rootOfUnity (-8) = .error (.notPowerOfTwo (-8)) ∧
      (∃ w, small.omicron = .ok w ∧ orderOf w = 4) ∧ high.omicron = .ok 1 ∧
      ∃ w, wide.omicron = .ok w ∧ orderOf w = 4 ∧ Goldilocks.rootOfUnity 4 = .ok w := by
  intro small high wide
  obtain ⟨hroots, hdomains⟩ := trace_domain_generators
  have hsmall : Goldilocks.rootOfUnity 8 = .ok small.generator :=
    Goldilocks.rootOfUnity_two_pow (e := 3) (by decide)
  have hwide : Goldilocks.rootOfUnity (2 ^ 32) = .ok wide.generator :=
    Goldilocks.rootOfUnity_two_pow le_rfl
  have hsmallOrder : (orderOf small.generator : ℤ) = 8 := (hroots 8).2.2.2 _ hsmall
  have hnegative : Goldilocks.rootOfUnity (-8) = .error (.notPowerOfTwo (-8)) := by
    apply (hroots (-8)).2.1.mpr
    rintro ⟨e, he⟩
    have : (0 : ℤ) < 2 ^ e := by positivity
    omega
  have hheight : small.height = 4 := by decide +kernel
  obtain ⟨v, hv, hvexact, -⟩ := hdomains small (by decide) ⟨3, rfl⟩ hsmallOrder
  obtain ⟨u, hu, -, hone, -⟩ := hdomains high (by decide) ⟨3, rfl⟩ hsmallOrder
  obtain ⟨w, hw, hwexact, -, hwroot⟩ :=
    hdomains wide (by decide) ⟨32, rfl⟩ ((hroots _).2.2.2 _ hwide)
  obtain rfl := hone (by decide +kernel)
  have hwheight : wide.height = 4 := hheight
  rw [hheight] at hvexact
  rw [hwheight] at hwexact hwroot
  exact ⟨hsmall, hsmallOrder, hnegative, ⟨v, hv, (hvexact (by decide)).1⟩, hu, w, hw,
    (hwexact (by decide)).1, hwroot hwide rfl (by decide)⟩

end TapeAir.Outline
