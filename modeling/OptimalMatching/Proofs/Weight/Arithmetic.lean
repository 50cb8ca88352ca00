import OptimalMatching.Proofs.Weight.Values
/-!
# Adding and subtracting weights

When an integer and a float are combined, the integer is rounded first, and the result is rounded
as well. There is a result unless the integer is too large (`Weight.exists_add?`,
`Weight.exists_sub?`).

**What a result is.** The float is not rounded first, so the order of the two is kept. Hence a
difference is not negative where the second number is at most the first, and it is zero where they
are equal (`Weight.lowered_of_sub?`). A sum is finite or infinite, but always an amount
(`Weight.isAmount_of_add?`). A weight that is raised and lowered by the same amount need not get its
value back, but a zero does (`Weight.isAmount_of_add?_sub?`). As long as the weights are far from
being too large, none of these exceeds the exact result by more than `roundoff`.
-/

namespace OptimalMatching

namespace Weight

variable {a b w : Weight}

/-! ## Becoming a float -/

theorem representable_of_float {f : Float} {x : ℚ} (h : (float f).value? = some x) :
    Representable x := by
  rw [value?_float] at h
  exact Binary64.representable_of_canonical (Binary64.canonical_unpack f) h

variable {c d s : Weight} {f g : Float}

/-- The weight becomes a float. -/
structure Becomes (w : Weight) (f : Float) : Prop where
  eq : w.toFloat? = some f
  finite : (float f).IsFinite
  rounds : Rounds w.num (float f).num

/-- **What becomes of a weight** is rounded. -/
theorem becomes_of_toFloat? (finite : w.IsFinite) (h : w.toFloat? = some f) : w.Becomes f := by
  cases w with
  | int n =>
    rw [toFloat?] at h
    split_ifs at h with hn
    cases h
    obtain ⟨y, hy, rounds⟩ := approximates_ofInt hn
    obtain ⟨finite', rfl⟩ := finite_of_value? hy
    refine ⟨?_, finite', ?_⟩
    · rw [toFloat?, if_pos hn]
    · rwa [num_int]
  | float x =>
    cases h
    exact ⟨rfl, finite, .refl _⟩
  | undefined i => cases finite

/-- The weights that are not too large become floats. -/
theorem exists_becomes (finite : w.IsFinite) (small : |w.num| ≤ largest) : ∃ f, w.Becomes f := by
  cases w with
  | int n =>
    have hcast : ((n.natAbs : ℕ) : ℚ) < (floatLimit : ℕ) := by
      rw [num_int] at small
      rw [cast_floatLimit, Nat.cast_natAbs, Int.cast_abs]
      exact small.trans_lt largest_lt_limit
    have hfloat : (int n).toFloat? = some (.ofInt n) := by
      rw [toFloat?, if_pos (Nat.cast_lt.1 hcast)]
    exact ⟨_, becomes_of_toFloat? finite hfloat⟩
  | float x => exact ⟨x, becomes_of_toFloat? finite rfl⟩
  | undefined i => cases finite

/-! ## Operations on an integer and a float -/

/-- At least one of two weights is a float. -/
def Mixed (a b : Weight) : Prop := ∀ m n, ¬ (a = .int m ∧ b = .int n)

theorem ints_or_mixed (a b : Weight) : (∃ m n, a = .int m ∧ b = .int n) ∨ Mixed a b := by
  by_cases h : ∃ m n, a = .int m ∧ b = .int n
  · exact .inl h
  · exact .inr fun m n hmn => h ⟨m, n, hmn⟩

theorem mixed_float_left (x : Float) (b : Weight) : Mixed (float x) b := fun _ _ h => nomatch h.1

namespace Mixed

theorem add?_eq_some_iff (mixed : Mixed a b) : a.add? b = some w ↔
    ∃ f g, a.toFloat? = some f ∧ b.toFloat? = some g ∧ float (f + g) = w := by
  unfold add?
  split
  · next m n => exact absurd ⟨rfl, rfl⟩ (mixed m n)
  · simp [Option.bind_eq_some_iff]

theorem sub?_eq_some_iff (mixed : Mixed a b) : a.sub? b = some w ↔
    ∃ f g, a.toFloat? = some f ∧ b.toFloat? = some g ∧ float (f - g) = w := by
  unfold sub?
  split
  · next m n => exact absurd ⟨rfl, rfl⟩ (mixed m n)
  · simp [Option.bind_eq_some_iff]

/-- One of the two is not rounded, so their order is kept. -/
theorem num_mono (mixed : Mixed a b) (ha : a.IsFinite) (hb : b.IsFinite) (hf : a.Becomes f)
    (hg : b.Becomes g) : (b.num ≤ a.num → (float g).num ≤ (float f).num) ∧
      (a.num ≤ b.num → (float f).num ≤ (float g).num) := by
  have representable : Representable a.num ∨ Representable b.num := by
    cases a with
    | undefined i => cases ha
    | float x => exact .inl (representable_of_float (finite_iff.1 ha))
    | int m =>
      cases b with
      | undefined i => cases hb
      | int n => exact absurd ⟨rfl, rfl⟩ (mixed m n)
      | float y => exact .inr (representable_of_float (finite_iff.1 hb))
  rcases representable with h | h
  · rw [hf.rounds.eq_of_representable h]
    exact ⟨hg.rounds.ge_of_ge h, hg.rounds.le_of_le h⟩
  · rw [hg.rounds.eq_of_representable h]
    exact ⟨hf.rounds.le_of_le h, hf.rounds.ge_of_ge h⟩

end Mixed

theorem exists_add? (hc : c.IsFinite) (hd : d.IsFinite) (hc₁ : |c.num| ≤ largest)
    (hd₁ : |d.num| ≤ largest) : ∃ w, c.add? d = some w := by
  rcases ints_or_mixed c d with ⟨m, n, rfl, rfl⟩ | mixed
  · exact ⟨_, add?_int m n⟩
  · obtain ⟨f, hf⟩ := exists_becomes hc hc₁
    obtain ⟨g, hg⟩ := exists_becomes hd hd₁
    exact ⟨_, mixed.add?_eq_some_iff.2 ⟨f, g, hf.eq, hg.eq, rfl⟩⟩

theorem exists_sub? (hc : c.IsFinite) (hd : d.IsFinite) (hc₁ : |c.num| ≤ largest)
    (hd₁ : |d.num| ≤ largest) : ∃ w, c.sub? d = some w := by
  rcases ints_or_mixed c d with ⟨m, n, rfl, rfl⟩ | mixed
  · exact ⟨_, sub?_int m n⟩
  · obtain ⟨f, hf⟩ := exists_becomes hc hc₁
    obtain ⟨g, hg⟩ := exists_becomes hd hd₁
    exact ⟨_, mixed.sub?_eq_some_iff.2 ⟨f, g, hf.eq, hg.eq, rfl⟩⟩

/-- What has been added can be subtracted again. -/
theorem exists_add?_sub? (hc : c.IsFinite) (hd : d.IsFinite) (hc₁ : |c.num| ≤ largest)
    (hd₁ : |d.num| ≤ largest) : ∃ s w, c.add? d = some s ∧ s.sub? d = some w := by
  rcases ints_or_mixed c d with ⟨m, n, rfl, rfl⟩ | mixed
  · exact ⟨_, _, add?_int m n, sub?_int (m + n) n⟩
  · obtain ⟨f, hf⟩ := exists_becomes hc hc₁
    obtain ⟨g, hg⟩ := exists_becomes hd hd₁
    exact ⟨_, _, mixed.add?_eq_some_iff.2 ⟨f, g, hf.eq, hg.eq, rfl⟩,
      (mixed_float_left _ d).sub?_eq_some_iff.2 ⟨_, g, rfl, hg.eq, rfl⟩⟩

/-! ## Bounds -/

/-- A number that is far from being too large. -/
def safe : ℚ := 2 ^ (1002 : ℤ)

/-- The bound up to which weights are combined without trouble. -/
def moderate : ℚ := 2 ^ (1000 : ℤ)

/-- More than what three roundings change in numbers that are at most twice the safe one. -/
def roundoff : ℚ := 2 ^ (952 : ℤ)

section Bounds

variable {x y : ℚ}

theorem roundoff_pos : 0 < roundoff := two_zpow_pos _

theorem safe_pos : 0 < safe := two_zpow_pos _

theorem roundoff_le_safe : roundoff ≤ safe := two_zpow_mono (by norm_num)

theorem moderate_nonneg : 0 ≤ moderate := (two_zpow_pos _).le

theorem moderate_le_safe : moderate ≤ safe := two_zpow_mono (by norm_num)

theorem four_moderate : 4 * moderate = safe := by
  rw [safe, show (1002 : ℤ) = 2 + 1000 from rfl, two_zpow_add]
  rfl

theorem two_safe : 2 * safe = 2 ^ (1003 : ℤ) := by
  rw [safe, show (1003 : ℤ) = 1 + 1002 from rfl, two_zpow_add, zpow_one]

theorem abs_le_of_safe (hx₀ : 0 ≤ x) (hx : x ≤ 2 * safe) : |x| ≤ largest := by
  rw [abs_of_nonneg hx₀]
  rw [two_safe] at hx
  exact hx.trans (zpow_le_largest (by norm_num))

theorem le_safe_of_rounds (h : Rounds x y) (hx : x ≤ safe) : y ≤ safe :=
  h.le_zpow (by norm_num) hx

theorem le_moderate_of_rounds (h : Rounds x y) (hx : x ≤ moderate) : y ≤ moderate :=
  h.le_zpow (by norm_num) hx

theorem near_of_rounds (h : Rounds x y) (hx₀ : 0 ≤ x) (hx : x ≤ 2 * safe) :
    |y - x| ≤ roundoff / 4 := by
  rw [two_safe] at hx
  have hlast := h.abs_sub_le (k := 1003) (by norm_num) (by rwa [abs_of_nonneg hx₀])
  have hfour : roundoff / 4 = 2 ^ (1003 - 53 : ℤ) := by
    rw [roundoff, show (952 : ℤ) = 2 + (1003 - 53) from rfl, two_zpow_add]
    norm_num
  rwa [← hfour] at hlast

end Bounds

theorem Becomes.le_safe (h : w.Becomes f) (hw : w.num ≤ safe) : (float f).num ≤ safe :=
  le_safe_of_rounds h.rounds hw

theorem Becomes.near (h : w.Becomes f) (hw₀ : 0 ≤ w.num) (hw : w.num ≤ safe) :
    |(float f).num - w.num| ≤ roundoff / 4 :=
  near_of_rounds h.rounds hw₀ (by linarith [safe_pos])

/-! ## Sums and differences -/

theorem finite_of_approximates {x : ℚ} (h : Approximates w x) : w.IsFinite ∧ Rounds x w.num := by
  obtain ⟨y, hy, rounds⟩ := h
  obtain ⟨finite, rfl⟩ := finite_of_value? hy
  exact ⟨finite, rounds⟩

theorem num_add (hf : (float f).IsFinite) (hg : (float g).IsFinite)
    (small : |(float f).num + (float g).num| ≤ largest) :
    (float (f + g)).IsFinite ∧ Rounds ((float f).num + (float g).num) (float (f + g)).num :=
  finite_of_approximates (approximates_add (finite_iff.1 hf) (finite_iff.1 hg) small)

theorem num_sub (hf : (float f).IsFinite) (hg : (float g).IsFinite) (hg₀ : 0 ≤ (float g).num)
    (hle : (float g).num ≤ (float f).num) :
    (float (f - g)).IsFinite ∧ Rounds ((float f).num - (float g).num) (float (f - g)).num := by
  have hf' := finite_iff.1 hf
  refine finite_of_approximates (approximates_sub hf' (finite_iff.1 hg) ?_)
  rw [abs_of_nonneg (sub_nonneg.2 hle)]
  exact (sub_le_self _ hg₀).trans ((le_abs_self _).trans (abs_le_largest_of_value? hf'))

/-- A finite sum is at least what is subtracted from it again. -/
theorem num_add_sub (hg : (float g).IsFinite) (hf₀ : 0 ≤ (float f).num) (hg₀ : 0 ≤ (float g).num)
    (finite : (float (f + g)).IsFinite)
    (rounds : Rounds ((float f).num + (float g).num) (float (f + g)).num) :
    (float (f + g - g)).IsFinite ∧ 0 ≤ (float (f + g)).num - (float g).num ∧
      Rounds ((float (f + g)).num - (float g).num) (float (f + g - g)).num := by
  have hge : (float g).num ≤ (float (f + g)).num :=
    rounds.le_of_le (representable_of_float (finite_iff.1 hg)) (by linarith)
  obtain ⟨finite', rounds'⟩ := num_sub finite hg hg₀ hge
  exact ⟨finite', sub_nonneg.2 hge, rounds'⟩

/-- What a difference is, of weights that are not negative and of which the second is at most the
first. -/
structure Lowered (c d w : Weight) : Prop where
  finite : w.IsFinite
  nonneg : 0 ≤ w.num
  /-- The difference of equal numbers is zero. -/
  zero : c.num = d.num → w.num = 0
  near : c.num ≤ safe → w.num ≤ c.num - d.num + roundoff
  le_moderate : c.num ≤ moderate → w.num ≤ moderate

/-- **A difference** of weights of which the second is at most the first. -/
theorem lowered_of_sub? (hc : c.IsFinite) (hd : d.IsFinite) (hd₀ : 0 ≤ d.num)
    (hdc : d.num ≤ c.num) (h : c.sub? d = some w) : Lowered c d w := by
  have hpos := roundoff_pos
  rcases ints_or_mixed c d with ⟨m, n, rfl, rfl⟩ | mixed
  · cases h
    have hw : (int (m - n)).num = (int m).num - (int n).num := by
      rw [num_int, num_int, num_int, Int.cast_sub]
    constructor
    case finite => exact finite_int _
    case nonneg =>
      rw [hw]
      exact sub_nonneg.2 hdc
    case zero =>
      intro heq
      rw [hw, heq, sub_self]
    case near =>
      intro _
      rw [hw]
      linarith
    case le_moderate =>
      intro _
      rw [hw]
      linarith
  · -- The integers are rounded to floats first, and this keeps their order.
    obtain ⟨f, g, hf, hg, rfl⟩ := mixed.sub?_eq_some_iff.1 h
    replace hf := becomes_of_toFloat? hc hf
    replace hg := becomes_of_toFloat? hd hg
    obtain ⟨hgf, hfg⟩ := mixed.num_mono hc hd hf hg
    have hc₀ := hd₀.trans hdc
    have hg₀ := hg.rounds.nonneg hd₀
    have nonneg := sub_nonneg.2 (hgf hdc)
    obtain ⟨finite, rounds⟩ := num_sub hf.finite hg.finite hg₀ (hgf hdc)
    constructor
    case finite => exact finite
    case nonneg => exact rounds.nonneg nonneg
    case zero =>
      intro heq
      have hzero : (float f).num - (float g).num = 0 :=
        sub_eq_zero.2 (le_antisymm (hfg heq.le) (hgf heq.ge))
      rw [hzero] at rounds
      exact rounds.eq_of_representable representable_zero
    case near =>
      intro hsafe
      have h₁ := hf.near hc₀ hsafe
      have h₂ := hg.near hd₀ (hdc.trans hsafe)
      have h₃ := near_of_rounds rounds nonneg (by linarith [hf.le_safe hsafe, safe_pos])
      linarith [(abs_le.1 h₁).2, (abs_le.1 h₂).1, (abs_le.1 h₃).2]
    case le_moderate =>
      intro hmoderate
      refine le_moderate_of_rounds rounds ?_
      linarith [le_moderate_of_rounds hf.rounds hmoderate]

/-- **A sum** of weights that are not negative. -/
theorem isAmount_of_add? (hc : c.IsFinite) (hd : d.IsFinite) (hc₀ : 0 ≤ c.num) (hd₀ : 0 ≤ d.num)
    (h : c.add? d = some w) : w.IsAmount ∧
      (c.num ≤ safe → d.num ≤ safe → w.IsFinite ∧ w.num ≤ c.num + d.num + roundoff) := by
  have hpos := roundoff_pos
  rcases ints_or_mixed c d with ⟨m, n, rfl, rfl⟩ | mixed
  · cases h
    have hw : (int (m + n)).num = (int m).num + (int n).num := by
      rw [num_int, num_int, num_int, Int.cast_add]
    refine ⟨.inl ⟨finite_int _, ?_⟩, fun _ _ => ⟨finite_int _, ?_⟩⟩
    · rw [hw]
      exact add_nonneg hc₀ hd₀
    · rw [hw]
      linarith
  · obtain ⟨f, g, hf, hg, rfl⟩ := mixed.add?_eq_some_iff.1 h
    replace hf := becomes_of_toFloat? hc hf
    replace hg := becomes_of_toFloat? hd hg
    have nonneg := add_nonneg (hf.rounds.nonneg hc₀) (hg.rounds.nonneg hd₀)
    refine ⟨?_, fun hc₁ hd₁ => ?_⟩
    · refine (add_approximates_or_infinity (finite_iff.1 hf.finite) (finite_iff.1 hg.finite)
        nonneg).imp_left fun h => ?_
      obtain ⟨finite, rounds⟩ := finite_of_approximates h
      exact ⟨finite, rounds.nonneg nonneg⟩
    · have hle : (float f).num + (float g).num ≤ 2 * safe := by
        linarith [hf.le_safe hc₁, hg.le_safe hd₁]
      obtain ⟨finite, rounds⟩ := num_add hf.finite hg.finite (abs_le_of_safe nonneg hle)
      have h₁ := hf.near hc₀ hc₁
      have h₂ := hg.near hd₀ hd₁
      have h₃ := near_of_rounds rounds nonneg hle
      exact ⟨finite, by linarith [(abs_le.1 h₁).2, (abs_le.1 h₂).2, (abs_le.1 h₃).2]⟩

/-- **Raised and lowered again**, a weight is not much larger than before, and zero stays zero. -/
theorem isAmount_of_add?_sub? (hc : c.IsFinite) (hd : d.IsFinite) (hc₀ : 0 ≤ c.num)
    (hd₀ : 0 ≤ d.num) (hs : c.add? d = some s) (hw : s.sub? d = some w) :
    w.IsAmount ∧ (c.num = 0 → w.IsFinite ∧ w.num = 0) ∧
      (c.num ≤ safe → d.num ≤ safe → w.IsFinite ∧ w.num ≤ c.num + roundoff) := by
  have hpos := roundoff_pos
  rcases ints_or_mixed c d with ⟨m, n, rfl, rfl⟩ | mixed
  · cases hs
    rw [sub?_int, add_sub_cancel_right] at hw
    cases hw
    exact ⟨.inl ⟨hc, hc₀⟩, fun hzero => ⟨hc, hzero⟩, fun _ _ => ⟨hc, by linarith⟩⟩
  · obtain ⟨f, g, hf, hg, rfl⟩ := mixed.add?_eq_some_iff.1 hs
    obtain ⟨f', g', hf', hg', rfl⟩ := (mixed_float_left _ d).sub?_eq_some_iff.1 hw
    cases hf'
    cases hg.symm.trans hg'
    replace hf := becomes_of_toFloat? hc hf
    replace hg := becomes_of_toFloat? hd hg
    have hf₀ := hf.rounds.nonneg hc₀
    have hg₀ := hg.rounds.nonneg hd₀
    refine ⟨?_, fun hzero => ?_, fun hc₁ hd₁ => ?_⟩
    · rcases add_approximates_or_infinity (finite_iff.1 hf.finite) (finite_iff.1 hg.finite)
        (add_nonneg hf₀ hg₀) with h | h
      · obtain ⟨finite, rounds⟩ := finite_of_approximates h
        obtain ⟨finite', nonneg, rounds'⟩ := num_add_sub hg.finite hf₀ hg₀ finite rounds
        exact .inl ⟨finite', rounds'.nonneg nonneg⟩
      · exact .inr (isInfinity_sub h (finite_iff.1 hg.finite))
    · -- Nothing is lost when a float is added to zero.
      have hf' : (float f).num = 0 := by
        have := hf.rounds
        rw [hzero] at this
        exact this.eq_of_representable representable_zero
      have small : |(float f).num + (float g).num| ≤ largest := by
        rw [hf', zero_add]
        exact abs_le_largest_of_value? (finite_iff.1 hg.finite)
      obtain ⟨finite, rounds⟩ := num_add hf.finite hg.finite small
      obtain ⟨finite', -, rounds'⟩ := num_add_sub hg.finite hf₀ hg₀ finite rounds
      rw [hf', zero_add] at rounds
      rw [rounds.eq_of_representable (representable_of_float (finite_iff.1 hg.finite)),
        sub_self] at rounds'
      exact ⟨finite', rounds'.eq_of_representable representable_zero⟩
    · have hle : (float f).num + (float g).num ≤ 2 * safe := by
        linarith [hf.le_safe hc₁, hg.le_safe hd₁]
      obtain ⟨finite, rounds⟩ :=
        num_add hf.finite hg.finite (abs_le_of_safe (add_nonneg hf₀ hg₀) hle)
      obtain ⟨finite', nonneg, rounds'⟩ := num_add_sub hg.finite hf₀ hg₀ finite rounds
      -- Three roundings: of the weight, of the sum and of the difference.
      have h₁ := hf.near hc₀ hc₁
      have h₂ := near_of_rounds rounds (add_nonneg hf₀ hg₀) hle
      have h₃ := near_of_rounds rounds' nonneg
        (by linarith [(abs_le.1 h₂).2, hf.le_safe hc₁, roundoff_le_safe])
      exact ⟨finite', by linarith [(abs_le.1 h₁).2, (abs_le.1 h₂).2, (abs_le.1 h₃).2]⟩

/-! ## Infinite weights -/

theorem exists_float_of_infinity (h : w.IsInfinity) :
    ∃ x, w = float x ∧ (float x).IsInfinity := by
  cases w with
  | int n => cases h
  | float x => exact ⟨x, rfl, h⟩
  | undefined i => cases h

theorem isInfinity_of_add? (hc : c.IsInfinity) (hd : d.IsFinite) (h : c.add? d = some w) :
    w.IsInfinity := by
  obtain ⟨x, rfl, hx⟩ := exists_float_of_infinity hc
  obtain ⟨f, g, hf, hg, rfl⟩ := (mixed_float_left x d).add?_eq_some_iff.1 h
  cases hf
  exact isInfinity_add hx (finite_iff.1 (becomes_of_toFloat? hd hg).finite)

theorem isInfinity_of_sub? (hc : c.IsInfinity) (hd : d.IsFinite) (h : c.sub? d = some w) :
    w.IsInfinity := by
  obtain ⟨x, rfl, hx⟩ := exists_float_of_infinity hc
  obtain ⟨f, g, hf, hg, rfl⟩ := (mixed_float_left x d).sub?_eq_some_iff.1 h
  cases hf
  exact isInfinity_sub hx (finite_iff.1 (becomes_of_toFloat? hd hg).finite)

/-! ## Sums of several weights -/

theorem representable_mul_moderate {k : ℕ} (hk : k ≤ 2 ^ 20) : Representable (k * moderate) := by
  have hk' : |(k : ℤ)| ≤ 2 ^ 53 := by
    rw [Nat.abs_cast]
    exact_mod_cast hk.trans (by norm_num)
  exact representable_mul_zpow hk' (by norm_num)

theorem mul_moderate_le {k : ℕ} (hk : k ≤ 2 ^ 20) : k * moderate ≤ largest := by
  have hcast : (k : ℚ) ≤ 2 ^ (20 : ℤ) := by exact_mod_cast hk
  calc (k : ℚ) * moderate ≤ 2 ^ (20 : ℤ) * 2 ^ (1000 : ℤ) :=
        mul_le_mul_of_nonneg_right hcast moderate_nonneg
    _ = 2 ^ (1020 : ℤ) := by
        rw [← two_zpow_add]
        rfl
    _ ≤ largest := zpow_le_largest (by norm_num)

theorem add?_moderate {k : ℕ} (hk : k + 1 ≤ 2 ^ 20) (hc : c.IsFinite) (hd : d.IsFinite)
    (hc₀ : 0 ≤ c.num) (hd₀ : 0 ≤ d.num) (hc₁ : c.num ≤ k * moderate) (hd₁ : d.num ≤ moderate) :
    ∃ w, c.add? d = some w ∧ w.IsFinite ∧ 0 ≤ w.num ∧ w.num ≤ (k + 1 : ℕ) * moderate := by
  have hsucc : ((k + 1 : ℕ) : ℚ) * moderate = k * moderate + moderate := by
    push_cast
    ring
  have hk₀ : 0 ≤ (k : ℚ) * moderate := mul_nonneg (Nat.cast_nonneg k) moderate_nonneg
  rw [hsucc]
  rcases ints_or_mixed c d with ⟨m, n, rfl, rfl⟩ | mixed
  · rw [num_int] at hc₀ hd₀ hc₁ hd₁
    refine ⟨.int (m + n), rfl, finite_int _, ?_, ?_⟩
    · rw [num_int, Int.cast_add]
      exact add_nonneg hc₀ hd₀
    · rw [num_int, Int.cast_add]
      exact add_le_add hc₁ hd₁
  · have small : ∀ {x : ℚ}, 0 ≤ x → x ≤ k * moderate + moderate → |x| ≤ largest := fun h₀ h =>
      (abs_of_nonneg h₀).le.trans (h.trans (hsucc ▸ mul_moderate_le hk))
    obtain ⟨f, hf⟩ := exists_becomes hc (small hc₀ (by linarith [moderate_nonneg]))
    obtain ⟨g, hg⟩ := exists_becomes hd (small hd₀ (by linarith))
    -- The bound is a float itself, so that rounding does not go beyond it.
    have hf₁ := hf.rounds.ge_of_ge (representable_mul_moderate (by omega)) hc₁
    have hg₁ := le_moderate_of_rounds hg.rounds hd₁
    have nonneg := add_nonneg (hf.rounds.nonneg hc₀) (hg.rounds.nonneg hd₀)
    obtain ⟨finite, rounds⟩ :=
      num_add hf.finite hg.finite (small nonneg (add_le_add hf₁ hg₁))
    refine ⟨_, mixed.add?_eq_some_iff.2 ⟨f, g, hf.eq, hg.eq, rfl⟩, finite, rounds.nonneg nonneg, ?_⟩
    have h := rounds.ge_of_ge (representable_mul_moderate hk)
    rw [hsucc] at h
    exact h (add_le_add hf₁ hg₁)

theorem exists_foldlM_of_moderate {l : List Weight} {k : ℕ}
    (h : ∀ w ∈ l, w.IsFinite ∧ 0 ≤ w.num ∧ w.num ≤ moderate) (few : k + l.length ≤ 2 ^ 20)
    (hc : c.IsFinite) (hc₀ : 0 ≤ c.num) (hc₁ : c.num ≤ k * moderate) :
    ∃ w, l.foldlM add? c = some w := by
  induction l generalizing k c with
  | nil => exact ⟨c, rfl⟩
  | cons d l ih =>
    rw [List.length_cons] at few
    obtain ⟨⟨hd, hd₀, hd₁⟩, hl⟩ := List.forall_mem_cons.1 h
    obtain ⟨w, hw, hw', hw₀, hw₁⟩ := add?_moderate (by omega) hc hd hc₀ hd₀ hc₁ hd₁
    rw [List.foldlM_cons, hw]
    exact ih hl (by omega) hw' hw₀ hw₁

/-- **The sum of moderate weights**, if there are not too many of them. -/
theorem exists_sum?_of_moderate {l : List Weight}
    (h : ∀ w ∈ l, w.IsFinite ∧ 0 ≤ w.num ∧ w.num ≤ moderate) (few : l.length ≤ 2 ^ 20) :
    ∃ w, sum? l = some w := by
  refine exists_foldlM_of_moderate (k := 0) h (by omega) (finite_int 0) ?_ ?_
  · rw [num_int, Int.cast_zero]
  · rw [num_int, Int.cast_zero, Nat.cast_zero, zero_mul]

def IsFloat (w : Weight) : Prop := ∃ x, w = float x

theorem exists_foldlM_of_floats {l : List Weight} (floats : ∀ w ∈ l, w.IsFloat)
    (hf : c.toFloat? = some f) : ∃ w, l.foldlM add? c = some w := by
  induction l generalizing c f with
  | nil => exact ⟨c, rfl⟩
  | cons d l ih =>
    obtain ⟨⟨x, rfl⟩, hl⟩ := List.forall_mem_cons.1 floats
    have mixed : Mixed c (float x) := fun _ _ h => nomatch h.2
    rw [List.foldlM_cons, mixed.add?_eq_some_iff.2 ⟨f, x, hf, rfl, rfl⟩]
    exact ih hl rfl

/-- **The sum of floats.** -/
theorem exists_sum?_of_floats {l : List Weight} (floats : ∀ w ∈ l, w.IsFloat) :
    ∃ w, sum? l = some w := by
  have small : |(int 0).num| ≤ largest := by
    rw [num_int, Int.cast_zero, abs_zero]
    exact largest_pos.le
  obtain ⟨f, hf⟩ := exists_becomes (finite_int 0) small
  exact exists_foldlM_of_floats floats hf.eq

end Weight

end OptimalMatching
