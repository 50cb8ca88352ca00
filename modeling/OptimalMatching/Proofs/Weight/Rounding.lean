import Mathlib.Algebra.Order.Field.Power
import Mathlib.Data.Rat.Floor
import Mathlib.Tactic.Linarith
/-!
# Rounding

A float holds a number with at most 53 significant bits, none of which stands for less than
`2 ^ (-1074)` (`Representable`). A number in between is rounded to one of its neighbors. All that is
needed to know about it is that no representable number is passed over (`Rounds`).

So a representable number stays as it is (`Rounds.eq_of_representable`), the sign stays
(`Rounds.nonneg`), a bound that is representable still holds after rounding, and a number of
magnitude `2 ^ k` is moved by `2 ^ (k - 53)` at most (`Rounds.abs_sub_le`).

**How large a float can be** does not matter to rounding. It comes in when a float is packed, with
the greatest number that a float holds (`largest`) and the bound up to which a number is rounded to
that one at most (`limit`).
-/

namespace OptimalMatching

/-- The numbers that a float holds exactly, as long as they are not too large. -/
def Representable (x : ℚ) : Prop :=
  ∃ k e : ℤ, |k| ≤ 2 ^ 53 ∧ -1074 ≤ e ∧ x = k * 2 ^ e

/-- The greatest number that a float holds. -/
def largest : ℚ := (2 ^ 53 - 1) * 2 ^ (971 : ℤ)

/-- The number halfway between the greatest float and the next power of two. Numbers below it are
rounded to the greatest float at most. -/
def limit : ℚ := (2 ^ 54 - 1) * 2 ^ (970 : ℤ)

/-- A number is rounded to another one without passing over a representable number. -/
structure Rounds (x y : ℚ) : Prop where
  le_of_le : ∀ {z}, Representable z → z ≤ x → z ≤ y
  ge_of_ge : ∀ {z}, Representable z → x ≤ z → y ≤ z

variable {x y z : ℚ} {k : ℤ}

theorem two_zpow_pos (e : ℤ) : (0 : ℚ) < 2 ^ e := zpow_pos (by norm_num) e

theorem two_zpow_add (a b : ℤ) : (2 : ℚ) ^ (a + b) = 2 ^ a * 2 ^ b := zpow_add₀ (by norm_num) a b

theorem two_zpow_mono {a b : ℤ} (h : a ≤ b) : (2 : ℚ) ^ a ≤ 2 ^ b :=
  zpow_le_zpow_right₀ (by norm_num) h

/-! ## Representable numbers -/

theorem representable_intCast {n : ℤ} (h : |n| ≤ 2 ^ 53) : Representable n :=
  ⟨n, 0, h, by norm_num, by norm_num⟩

theorem representable_zero : Representable 0 := by
  have := representable_intCast (n := 0) (by norm_num)
  simpa using this

theorem representable_mul_zpow {n e : ℤ} (h : |n| ≤ 2 ^ 53) (he : -1074 ≤ e) :
    Representable (n * 2 ^ e) :=
  ⟨n, e, h, he, rfl⟩

theorem representable_zpow {e : ℤ} (he : -1074 ≤ e) : Representable (2 ^ e) := by
  have := representable_mul_zpow (n := 1) (by norm_num) he
  simpa using this

theorem representable_largest : Representable largest := by
  refine ⟨2 ^ 53 - 1, 971, by norm_num, by norm_num, ?_⟩
  rw [largest, Int.cast_sub, Int.cast_pow, Int.cast_one, Int.cast_ofNat]

theorem largest_pos : 0 < largest := mul_pos (by norm_num) (two_zpow_pos _)

theorem zpow_le_largest {e : ℤ} (he : e ≤ 1023) : 2 ^ e ≤ largest :=
  calc (2 : ℚ) ^ e ≤ 2 ^ (52 + 971 : ℤ) := two_zpow_mono he
    _ = 2 ^ 52 * 2 ^ (971 : ℤ) := two_zpow_add 52 971
    _ ≤ largest := mul_le_mul_of_nonneg_right (by norm_num) (two_zpow_pos _).le

theorem largest_lt_zpow {e : ℤ} (he : 1024 ≤ e) : largest < 2 ^ e :=
  calc largest < 2 ^ 53 * 2 ^ (971 : ℤ) :=
        mul_lt_mul_of_pos_right (by norm_num) (two_zpow_pos _)
    _ = 2 ^ (53 + 971 : ℤ) := (two_zpow_add 53 971).symm
    _ ≤ 2 ^ e := two_zpow_mono he

theorem largest_lt_limit : largest < limit := by
  have hpos := two_zpow_pos 970
  rw [largest, limit, show (971 : ℤ) = 1 + 970 from rfl, two_zpow_add, ← mul_assoc]
  exact mul_lt_mul_of_pos_right (by norm_num) hpos

theorem limit_le_zpow {e : ℤ} (he : 1024 ≤ e) : limit ≤ 2 ^ e :=
  calc limit ≤ 2 ^ 54 * 2 ^ (970 : ℤ) :=
        mul_le_mul_of_nonneg_right (by norm_num) (two_zpow_pos _).le
    _ = 2 ^ (54 + 970 : ℤ) := (two_zpow_add 54 970).symm
    _ ≤ 2 ^ e := two_zpow_mono he

theorem Representable.neg (h : Representable x) : Representable (-x) := by
  obtain ⟨k, e, hk, he, rfl⟩ := h
  exact ⟨-k, e, by rwa [abs_neg], he, by push_cast; ring⟩

/-- A representable number is a multiple of a power of two, or it is small beside it. -/
theorem Representable.multiple_or_small (hz : Representable z) (t : ℤ) :
    (∃ a : ℤ, z = a * 2 ^ t) ∨ -1074 < t ∧ z ≤ 2 ^ 52 * 2 ^ t := by
  obtain ⟨j, e, hj, he, rfl⟩ := hz
  rcases le_or_gt t e with hfine | hcoarse
  · refine .inl ⟨j * 2 ^ (e - t).toNat, ?_⟩
    have hsplit : e = ((e - t).toNat : ℤ) + t := by omega
    conv_lhs => rw [hsplit, two_zpow_add, zpow_natCast]
    push_cast
    ring
  · refine .inr ⟨by omega, ?_⟩
    have hjq : (j : ℚ) ≤ 2 ^ 53 := by exact_mod_cast (abs_le.1 hj).2
    calc (j : ℚ) * 2 ^ e ≤ 2 ^ 53 * 2 ^ (t - 1) :=
          mul_le_mul hjq (two_zpow_mono (by omega)) (two_zpow_pos e).le (by norm_num)
      _ = 2 ^ 52 * 2 ^ t := by
          rw [sub_eq_add_neg, two_zpow_add _ (-1)]
          norm_num
          ring

/-! ## Rounding -/

namespace Rounds

/-- **Rounding to a multiple** of a power of two. The number has 53 bits above the power, or the
power is the least one. -/
theorem of_multiples {r : ℕ} {t : ℤ} (hx : 0 ≤ x) (full : -1074 < t → 2 ^ 52 * 2 ^ t ≤ x)
    (le : ∀ {a : ℕ}, a * 2 ^ t ≤ x → a ≤ r) (ge : ∀ {a : ℕ}, x ≤ a * 2 ^ t → r ≤ a) :
    Rounds x (r * 2 ^ t) := by
  have hpos := two_zpow_pos t
  have hlarge : ∀ {a : ℕ}, a ≤ r → (a : ℚ) * 2 ^ t ≤ r * 2 ^ t := fun h =>
    mul_le_mul_of_nonneg_right (by exact_mod_cast h) hpos.le
  have hsmall : ∀ {a : ℕ}, r ≤ a → (r : ℚ) * 2 ^ t ≤ a * 2 ^ t := fun h =>
    mul_le_mul_of_nonneg_right (by exact_mod_cast h) hpos.le
  have hcast : ((2 ^ 52 : ℕ) : ℚ) = 2 ^ 52 := by norm_num
  -- A float is a multiple of the power, or it is below the multiples that have 53 bits, and then
  -- the least of these is between.
  refine ⟨fun {z} hz hzx => ?_, fun {z} hz hxz => ?_⟩
  · rcases hz.multiple_or_small t with ⟨a, rfl⟩ | ⟨ht, hz'⟩
    · rcases le_or_gt a 0 with ha | ha
      · exact mul_le_mul_of_nonneg_right (le_trans (by exact_mod_cast ha) (Nat.cast_nonneg r))
          hpos.le
      · lift a to ℕ using ha.le
        exact hlarge (le hzx)
    · have := hlarge (le (a := 2 ^ 52) (by rw [hcast]; exact full ht))
      rw [hcast] at this
      exact hz'.trans this
  · rcases hz.multiple_or_small t with ⟨a, rfl⟩ | ⟨ht, hz'⟩
    · have ha : 0 ≤ a := by exact_mod_cast nonneg_of_mul_nonneg_left (hx.trans hxz) hpos
      lift a to ℕ using ha
      exact hsmall (ge hxz)
    · have := hsmall (ge (a := 2 ^ 52) (by rw [hcast]; exact hxz.trans hz'))
      rw [hcast] at this
      exact this.trans ((full ht).trans hxz)

theorem refl (x : ℚ) : Rounds x x := ⟨fun _ h => h, fun _ h => h⟩

theorem neg (h : Rounds x y) : Rounds (-x) (-y) where
  le_of_le hz hzx := by
    have := h.ge_of_ge hz.neg (by linarith)
    linarith
  ge_of_ge hz hzx := by
    have := h.le_of_le hz.neg (by linarith)
    linarith

/-- **A representable number** is not rounded. -/
theorem eq_of_representable (h : Rounds x y) (hx : Representable x) : y = x :=
  le_antisymm (h.ge_of_ge hx le_rfl) (h.le_of_le hx le_rfl)

theorem nonneg (h : Rounds x y) (hx : 0 ≤ x) : 0 ≤ y := h.le_of_le representable_zero hx

/-- What is not too large stays so. -/
theorem le_zpow (h : Rounds x y) (hk : -1074 ≤ k) (hx : x ≤ 2 ^ k) : y ≤ 2 ^ k :=
  h.ge_of_ge (representable_zpow hk) hx

theorem abs_le_largest (h : Rounds x y) (hx : |x| ≤ largest) : |y| ≤ largest := by
  rw [abs_le] at hx ⊢
  exact ⟨h.le_of_le representable_largest.neg hx.1, h.ge_of_ge representable_largest hx.2⟩

/-- **A number of some magnitude** is moved by less than its last significant bit. -/
theorem abs_sub_le (h : Rounds x y) (hk : -1021 ≤ k) (hx : |x| ≤ 2 ^ k) :
    |y - x| ≤ 2 ^ (k - 53) := by
  have hpos := two_zpow_pos (k - 53)
  have hscale : (2 : ℚ) ^ k = 2 ^ 53 * 2 ^ (k - 53) := by
    rw [show k = 53 + (k - 53) by ring, two_zpow_add]
    norm_num
  rw [hscale, abs_le] at hx
  -- The multiples of the last bit next to the number are representable.
  let low := ⌊x / 2 ^ (k - 53)⌋
  let high := ⌈x / 2 ^ (k - 53)⌉
  have hlow : (low : ℚ) * 2 ^ (k - 53) ≤ x := (le_div_iff₀ hpos).1 (Int.floor_le _)
  have hhigh : x ≤ (high : ℚ) * 2 ^ (k - 53) := (div_le_iff₀ hpos).1 (Int.le_ceil _)
  have hlow_abs : |low| ≤ 2 ^ 53 := by
    have h₁ : -2 ^ 53 ≤ low := Int.le_floor.2 ((le_div_iff₀ hpos).2 (by push_cast; linarith))
    have h₂ : (low : ℚ) ≤ 2 ^ 53 := by
      refine le_of_mul_le_mul_right ?_ hpos
      linarith
    exact abs_le.2 ⟨h₁, by exact_mod_cast h₂⟩
  have hhigh_abs : |high| ≤ 2 ^ 53 := by
    have h₁ : high ≤ 2 ^ 53 := Int.ceil_le.2 ((div_le_iff₀ hpos).2 (by push_cast; linarith))
    have h₂ : (-2 ^ 53 : ℚ) ≤ high := by
      refine le_of_mul_le_mul_right ?_ hpos
      linarith
    exact abs_le.2 ⟨by exact_mod_cast h₂, h₁⟩
  have hy_low := h.le_of_le (representable_mul_zpow hlow_abs (by omega)) hlow
  have hy_high := h.ge_of_ge (representable_mul_zpow hhigh_abs (by omega)) hhigh
  have hgap : (high : ℚ) * 2 ^ (k - 53) ≤ low * 2 ^ (k - 53) + 2 ^ (k - 53) := by
    have hstep : (high : ℚ) ≤ low + 1 := by exact_mod_cast Int.ceil_le_floor_add_one _
    calc (high : ℚ) * 2 ^ (k - 53) ≤ (low + 1) * 2 ^ (k - 53) :=
          mul_le_mul_of_nonneg_right hstep hpos.le
      _ = low * 2 ^ (k - 53) + 2 ^ (k - 53) := by ring
  rw [abs_le]
  constructor <;> linarith

end Rounds

end OptimalMatching
