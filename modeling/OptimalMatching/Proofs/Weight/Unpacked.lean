import Mathlib
import OptimalMatching.Proofs.Weight.Rounding
/-!
# The arithmetic of unpacked floats

An unpacked float is a sign, a mantissa and an exponent. An operation finds the exact result first
and then rounds the mantissa by shifting bits out, with the exponent as large as is needed. Only
when the float is packed does it count that the exponent has a greatest value.

**Rounding a mantissa** passes over no representable number (`rounds_shifted`). The bits that are
kept are either the 53 most significant ones, and then what is representable nearby is a multiple of
the last of them, or those down to `2 ^ (-1074)`. Bits that come to less than a half are dropped, so
a number below the limit is not rounded beyond the greatest float (`abs_le_largest_of_lt`).

So sums and products approximate the exact ones (`approximates_add`, `approximates_mul`), and the
result has all of its 53 bits unless its exponent is the least one (`Canonical`), which is what
packing relies on.
-/

namespace OptimalMatching.Binary64

open Float.Model (Format UnpackedFloat totalExponent)
open Float.Model.UnpackedFloat (Sign ExtendedMantissa Accuracy shiftToExponent
  shiftToTargetExponent roundWithAccuracy decreaseExponent)

/-! ## What unpacked floats stand for -/

/-- The number with the given sign, mantissa and exponent. -/
def signed (s : Sign) (m : Nat) (e : ℤ) : ℚ := (s.apply m : ℤ) * 2 ^ e

/-- The number that an unpacked float stands for, if it is finite. -/
def value? : UnpackedFloat → Option ℚ
  | .zero _ => some 0
  | .finite s m e _ => some (signed s m e)
  | _ => none

/-- What rounding leaves and packing relies on: a finite float has all of its 53 bits, unless its
exponent is the least one. -/
def Canonical : UnpackedFloat → Prop
  | .finite _ m e _ => m < 2 ^ 53 ∧ -1074 ≤ e ∧ (2 ^ 52 ≤ m ∨ e = -1074)
  | _ => True

/-- A canonical float that stands for a number after rounding. -/
def Approximates (u : UnpackedFloat) (x : ℚ) : Prop :=
  Canonical u ∧ ∃ y, value? u = some y ∧ Rounds x y

section Signed

variable (s : Sign) {m m' : Nat} {e e' : ℤ}

theorem signed_positive : signed .positive m e = m * 2 ^ e := rfl

theorem signed_negative : signed .negative m e = -(m * 2 ^ e) := by
  simp [signed, Sign.apply]

theorem signed_congr (h : (m : ℚ) * 2 ^ e = m' * 2 ^ e') : signed s m e = signed s m' e' := by
  cases s with
  | positive => rw [signed_positive, signed_positive, h]
  | negative => rw [signed_negative, signed_negative, h]

theorem signed_neg : signed (-s) m e = -signed s m e := by
  cases s with
  | positive => exact signed_negative
  | negative =>
    rw [signed_negative, neg_neg]
    exact signed_positive

theorem abs_signed : |signed s m e| = m * 2 ^ e := by
  have hnonneg : (0 : ℚ) ≤ m * 2 ^ e := mul_nonneg (Nat.cast_nonneg m) (two_zpow_pos e).le
  cases s with
  | positive => rw [signed_positive, abs_of_nonneg hnonneg]
  | negative => rw [signed_negative, abs_neg, abs_of_nonneg hnonneg]

theorem rounds_signed (h : Rounds (m * 2 ^ e) (m' * 2 ^ e')) :
    Rounds (signed s m e) (signed s m' e') := by
  cases s with
  | positive => rwa [signed_positive, signed_positive]
  | negative =>
    rw [signed_negative, signed_negative]
    exact h.neg

end Signed

/-! ## Shifting bits out -/

theorem mantissa_shiftRight (em : ExtendedMantissa) (k : Nat) :
    (em >>> k).mantissa = em.mantissa / 2 ^ k := by
  induction k with
  | zero => exact (Nat.div_one _).symm
  | succ k ih =>
    show (em >>> k).mantissa / 2 = _
    rw [ih, Nat.div_div_eq_div_mul, Nat.pow_succ]

theorem shiftRight_of_dvd {m k : Nat} (h : 2 ^ k ∣ m) :
    (⟨m, false, false⟩ : ExtendedMantissa) >>> k = ⟨m / 2 ^ k, false, false⟩ := by
  induction k with
  | zero => simp [HShiftRight.hShiftRight, Nat.repeat]
  | succ k ih =>
    have hk := ih ((pow_dvd_pow 2 (Nat.le_succ k)).trans h)
    have heven : m / 2 ^ k % 2 = 0 := by
      obtain ⟨c, rfl⟩ := h
      rw [pow_succ, mul_assoc, Nat.mul_div_cancel_left _ (Nat.two_pow_pos k)]
      exact Nat.mul_mod_right 2 c
    show ((⟨m, false, false⟩ : ExtendedMantissa) >>> k).shiftRightOne = _
    rw [hk, ExtendedMantissa.shiftRightOne]
    simp [heven, Nat.div_div_eq_div_mul, pow_succ]

theorem roundedMantissa_bounds (em : ExtendedMantissa) :
    em.mantissa ≤ em.roundedMantissa ∧ em.roundedMantissa ≤ em.mantissa + 1 := by
  obtain ⟨m, roundBit, stickyBit⟩ := em
  cases roundBit <;> cases stickyBit <;>
    simp only [ExtendedMantissa.roundedMantissa, ExtendedMantissa.accuracy,
      Accuracy.roundToNearestEven] <;> omega

/-- The mantissa that is left when `k` bits are shifted out. -/
def shifted (m k : Nat) : Nat := ((⟨m, false, false⟩ : ExtendedMantissa) >>> k).roundedMantissa

theorem shifted_bounds (m k : Nat) : m / 2 ^ k ≤ shifted m k ∧ shifted m k ≤ m / 2 ^ k + 1 := by
  have h := roundedMantissa_bounds ((⟨m, false, false⟩ : ExtendedMantissa) >>> k)
  rwa [mantissa_shiftRight] at h

/-- **Shifting bits out** passes over no mantissa. -/
theorem le_shifted {m k a : Nat} (h : a * 2 ^ k ≤ m) : a ≤ shifted m k :=
  ((Nat.le_div_iff_mul_le (Nat.two_pow_pos k)).2 h).trans (shifted_bounds m k).1

theorem shifted_le {m k a : Nat} (h : m ≤ a * 2 ^ k) : shifted m k ≤ a := by
  rcases h.eq_or_lt with rfl | hlt
  · rw [shifted, shiftRight_of_dvd (Nat.dvd_mul_left ..), Nat.mul_div_cancel _ (Nat.two_pow_pos k)]
    rfl
  · exact (shifted_bounds m k).2.trans ((Nat.div_lt_iff_lt_mul (Nat.two_pow_pos k)).2 hlt)

/-- Bits that come to less than a half are dropped. -/
theorem shifted_eq_div {m k : Nat} (h : 2 * (m % 2 ^ k) < 2 ^ k) : shifted m k = m / 2 ^ k := by
  have hround : ((⟨m, false, false⟩ : ExtendedMantissa) >>> k).roundBit = false := by
    cases k with
    | zero => rfl
    | succ k =>
      have hbit : m / 2 ^ k % 2 = 0 := by
        rw [Nat.mod_pow_succ, pow_succ] at h
        by_contra hone
        have := Nat.le_mul_of_pos_right (2 ^ k) (Nat.pos_of_ne_zero hone)
        omega
      show (((⟨m, false, false⟩ : ExtendedMantissa) >>> k).mantissa % 2 != 0) = false
      rw [mantissa_shiftRight, hbit]
      rfl
  have hmantissa := mantissa_shiftRight ⟨m, false, false⟩ k
  unfold shifted
  generalize ((⟨m, false, false⟩ : ExtendedMantissa) >>> k) = em at *
  obtain ⟨m', roundBit, stickyBit⟩ := em
  obtain rfl : roundBit = false := hround
  cases stickyBit <;> exact hmantissa

/-- A mantissa that is less than halfway to the next one is not rounded up to it. -/
theorem shifted_le_of_lt {m k a : Nat} (h : 2 * m < (2 * a + 1) * 2 ^ k) : shifted m k ≤ a := by
  by_cases hle : m ≤ a * 2 ^ k
  · exact shifted_le hle
  · obtain ⟨r, rfl⟩ := Nat.exists_eq_add_of_lt (not_le.1 hle)
    have hr : 2 * (r + 1) < 2 ^ k := by
      rw [add_mul, one_mul, mul_assoc] at h
      omega
    have hlt : r + 1 < 2 ^ k := by omega
    rw [add_assoc, mul_comm, shifted_eq_div (by rwa [Nat.mul_add_mod, Nat.mod_eq_of_lt hlt]),
      Nat.mul_add_div (Nat.two_pow_pos k), Nat.div_eq_of_lt hlt, add_zero]

/-- The exponent of the last bit that a float may keep of a number. -/
def lastBit (m : Nat) (e : ℤ) : ℤ := max (m.log2 + e - 52) (-1074)

theorem targetExponent_eq (m : Nat) (e : ℤ) :
    Format.binary64.targetExponent (totalExponent m e) = lastBit m e := by
  have hbits : (Format.binary64.mantissaBits : ℤ) = 53 := rfl
  have hleast : Format.binary64.minExponent = -1074 := rfl
  unfold Format.targetExponent totalExponent lastBit
  rw [hbits, hleast]
  omega

/-- A mantissa has enough bits to be rounded by shifting bits out. -/
def Ample (m : Nat) (e : ℤ) : Prop := 52 ≤ m.log2 ∨ e ≤ -1074

theorem Ample.le_lastBit {m : Nat} {e : ℤ} (ample : Ample m e) : e ≤ lastBit m e := by
  unfold Ample at ample
  unfold lastBit
  omega

/-- When the last bit is not the least possible one, the number has all of the bits above it. -/
theorem Ample.log2_eq {m : Nat} {e : ℤ} (ample : Ample m e) (ht : -1074 < lastBit m e) :
    m ≠ 0 ∧ m.log2 + e = 52 + lastBit m e := by
  have hlog : m.log2 + e = 52 + lastBit m e := by
    unfold lastBit at ht ⊢
    omega
  refine ⟨?_, hlog⟩
  rintro rfl
  unfold Ample at ample
  rw [Nat.log2_zero] at ample hlog
  omega

/-- **Shifting the excess bits out** rounds a number. -/
theorem rounds_shifted {m : Nat} {e : ℤ} (ample : Ample m e) :
    Rounds (m * 2 ^ e) (shifted m (lastBit m e - e).toNat * 2 ^ lastBit m e) := by
  have hpos := two_zpow_pos e
  have hle := ample.le_lastBit
  -- A multiple of the last bit that is kept is a number of bits of the old mantissa.
  have hscale : ∀ a : ℕ,
      (a : ℚ) * 2 ^ lastBit m e = (a * 2 ^ (lastBit m e - e).toNat : ℕ) * 2 ^ e := by
    intro a
    have hsplit : lastBit m e = ((lastBit m e - e).toNat : ℤ) + e := by omega
    conv_lhs => rw [hsplit, two_zpow_add, zpow_natCast, ← mul_assoc]
    push_cast
    rfl
  refine .of_multiples (mul_nonneg (Nat.cast_nonneg m) hpos.le) (fun ht => ?_) (fun {a} ha => ?_)
    fun {a} ha => ?_
  · obtain ⟨hm, hlog⟩ := ample.log2_eq ht
    have hfull : (2 : ℚ) ^ m.log2 ≤ m := by exact_mod_cast Nat.log2_self_le hm
    calc (2 : ℚ) ^ 52 * 2 ^ lastBit m e = 2 ^ (52 + lastBit m e) := by
          rw [two_zpow_add]
          rfl
      _ = 2 ^ m.log2 * 2 ^ e := by rw [← hlog, two_zpow_add, zpow_natCast]
      _ ≤ m * 2 ^ e := mul_le_mul_of_nonneg_right hfull hpos.le
  · rw [hscale] at ha
    exact le_shifted (by exact_mod_cast le_of_mul_le_mul_right ha hpos)
  · rw [hscale] at ha
    exact shifted_le (by exact_mod_cast le_of_mul_le_mul_right ha hpos)

theorem shifted_le_twoTo {m : Nat} {e : ℤ} : shifted m (lastBit m e - e).toNat ≤ 2 ^ 53 := by
  refine shifted_le (Nat.le_of_lt ?_)
  rw [← Nat.pow_add]
  refine Nat.lt_of_lt_of_le Nat.lt_log2_self (Nat.pow_le_pow_right (by decide) ?_)
  unfold lastBit
  omega

/-- The mantissa of a number with all of its bits has all of its bits after rounding. -/
theorem Ample.le_shifted {m : Nat} {e : ℤ} (ample : Ample m e) (ht : -1074 < lastBit m e) :
    2 ^ 52 ≤ shifted m (lastBit m e - e).toNat := by
  obtain ⟨hm, hlog⟩ := ample.log2_eq ht
  have hle := ample.le_lastBit
  have hlog' : m.log2 = 52 + (lastBit m e - e).toNat := by omega
  refine Binary64.le_shifted ?_
  rw [← Nat.pow_add, ← hlog']
  exact Nat.log2_self_le hm

theorem shiftToTargetExponent_eq (m : Nat) (e : ℤ) :
    shiftToTargetExponent Format.binary64 m e .exact =
      ((⟨m, false, false⟩ : ExtendedMantissa) >>> (lastBit m e - e).toNat,
        e + (lastBit m e - e).toNat) := by
  unfold shiftToTargetExponent shiftToExponent
  rw [targetExponent_eq]
  rfl

/-- After rounding, a mantissa with one bit too many is halved, and any other one stays. -/
theorem shiftToTargetExponent_rounded {r : Nat} {t : ℤ} (hr : r ≤ 2 ^ 53) (ht : -1074 ≤ t) :
    (r < 2 ^ 53 ∧ shiftToTargetExponent Format.binary64 r t .exact = (⟨r, false, false⟩, t)) ∨
    (r = 2 ^ 53 ∧ shiftToTargetExponent Format.binary64 r t .exact =
      (⟨2 ^ 52, false, false⟩, t + 1)) := by
  rw [shiftToTargetExponent_eq]
  rcases hr.lt_or_eq with hlt | rfl
  · have hlog : r.log2 ≤ 52 := by
      by_cases hzero : r = 0
      · rw [hzero, Nat.log2_zero]
        exact Nat.zero_le _
      · exact Nat.le_of_lt_succ ((Nat.log2_lt hzero).2 hlt)
    have hstay : (lastBit r t - t).toNat = 0 := by
      unfold lastBit
      omega
    rw [hstay]
    exact .inl ⟨hlt, by simp [HShiftRight.hShiftRight, Nat.repeat]⟩
  · have hhalve : (lastBit (2 ^ 53) t - t).toNat = 1 := by
      unfold lastBit
      rw [Nat.log2_two_pow]
      omega
    rw [hhalve]
    exact .inr ⟨rfl, by rfl⟩

/-! ## Rounding -/

/-- The float with the given sign, mantissa and exponent, which is zero if the mantissa is. -/
def assemble (s : Sign) (m : Nat) (e : ℤ) : UnpackedFloat :=
  if h : m = 0 then .zero s else .finite s m e (Nat.pos_of_ne_zero h)

@[simp] theorem value?_assemble (s : Sign) (m : Nat) (e : ℤ) :
    value? (assemble s m e) = some (signed s m e) := by
  unfold assemble
  split_ifs with hzero
  · subst hzero
    cases s <;> simp [value?, signed, Sign.apply]
  · rfl

theorem canonical_assemble {s : Sign} {m : Nat} {e : ℤ} (hm : m < 2 ^ 53) (he : -1074 ≤ e)
    (hfull : 2 ^ 52 ≤ m ∨ e = -1074) : Canonical (assemble s m e) := by
  unfold assemble
  split_ifs
  · trivial
  · exact ⟨hm, he, hfull⟩

theorem roundWithAccuracy_eq {m : Nat} {e : ℤ} (s : Sign) (ample : Ample m e) :
    roundWithAccuracy Format.binary64 s m e .exact =
      let (em, f) := shiftToTargetExponent Format.binary64
        (shifted m (lastBit m e - e).toNat) (lastBit m e) .exact
      assemble s em.mantissa f := by
  have hexponent : e + ((lastBit m e - e).toNat : ℤ) = lastBit m e := by
    have := ample.le_lastBit
    omega
  unfold roundWithAccuracy
  rw [shiftToTargetExponent_eq, hexponent]
  rfl

/-- What is left of a mantissa with enough bits. -/
theorem roundWithAccuracy_spec {m : Nat} {e : ℤ} (s : Sign) (ample : Ample m e) :
    Canonical (roundWithAccuracy Format.binary64 s m e .exact) ∧
      value? (roundWithAccuracy Format.binary64 s m e .exact) =
        some (signed s (shifted m (lastBit m e - e).toNat) (lastBit m e)) := by
  have ht : -1074 ≤ lastBit m e := le_max_right ..
  have hfull := ample.le_shifted
  have hle : shifted m (lastBit m e - e).toNat ≤ 2 ^ 53 := shifted_le_twoTo
  rw [roundWithAccuracy_eq s ample]
  generalize shifted m (lastBit m e - e).toNat = r at *
  rcases shiftToTargetExponent_rounded hle ht with ⟨hlt, heq⟩ | ⟨rfl, heq⟩
  · rw [heq]
    exact ⟨canonical_assemble hlt ht (ht.lt_or_eq.imp hfull Eq.symm), value?_assemble ..⟩
  · rw [heq]
    refine ⟨canonical_assemble (by decide) (by omega) (.inl le_rfl), ?_⟩
    have hdouble : signed s (2 ^ 52) (lastBit m e + 1) = signed s (2 ^ 53) (lastBit m e) := by
      refine signed_congr s ?_
      rw [two_zpow_add]
      norm_num
      ring
    rw [← hdouble]
    exact value?_assemble ..

/-- **Rounding a mantissa** with enough bits. -/
theorem approximates_roundWithAccuracy {m : Nat} {e : ℤ} (s : Sign) (ample : Ample m e) :
    Approximates (roundWithAccuracy Format.binary64 s m e .exact) (signed s m e) := by
  obtain ⟨canonical, hvalue⟩ := roundWithAccuracy_spec s ample
  exact ⟨canonical, _, hvalue, rounds_signed s (rounds_shifted ample)⟩

theorem mul_zpow_le_largest {m : Nat} {e : ℤ} (hm : m < 2 ^ 53) (he : e ≤ 971) :
    (m : ℚ) * 2 ^ e ≤ largest := by
  have hcast : ((2 ^ 53 - 1 : ℕ) : ℚ) = 2 ^ 53 - 1 := by norm_num
  refine mul_le_mul ?_ (two_zpow_mono he) (two_zpow_pos e).le (by norm_num)
  rw [← hcast]
  exact_mod_cast Nat.le_pred_of_lt hm

/-- **A number below the limit** is rounded to the greatest float at most. -/
theorem abs_le_largest_of_lt {m : Nat} {e : ℤ} {s : Sign} {y : ℚ} (ample : Ample m e)
    (h : (m : ℚ) * 2 ^ e < limit)
    (hy : value? (roundWithAccuracy Format.binary64 s m e .exact) = some y) : |y| ≤ largest := by
  obtain rfl := Option.some.inj ((roundWithAccuracy_spec s ample).2.symm.trans hy)
  have hpos := two_zpow_pos e
  rw [abs_signed]
  rcases lt_trichotomy (lastBit m e) 971 with hsmall | hequal | hlarge
  · calc (shifted m (lastBit m e - e).toNat : ℚ) * 2 ^ lastBit m e ≤ 2 ^ (53 : ℤ) * 2 ^ (970 : ℤ) :=
          mul_le_mul (by exact_mod_cast shifted_le_twoTo) (two_zpow_mono (by omega))
            (two_zpow_pos _).le (two_zpow_pos _).le
      _ = 2 ^ (53 + 970 : ℤ) := (two_zpow_add 53 970).symm
      _ ≤ largest := zpow_le_largest (by norm_num)
  · -- The mantissa is less than halfway between the greatest one and the next.
    have hhalf : 2 * m < (2 * (2 ^ 53 - 1) + 1) * 2 ^ (971 - e).toNat := by
      have hsplit : (2 : ℚ) * 2 ^ (970 : ℤ) = 2 ^ (971 - e).toNat * 2 ^ e := by
        rw [← zpow_natCast, ← two_zpow_add, ← zpow_one_add₀ (by norm_num)]
        congr 1
        have := ample.le_lastBit
        omega
      have hdouble := mul_lt_mul_of_pos_left h (zero_lt_two' ℚ)
      rw [limit, mul_left_comm 2 (2 ^ 54 - 1 : ℚ), hsplit, ← mul_assoc, ← mul_assoc] at hdouble
      have hcast := lt_of_mul_lt_mul_right hdouble hpos.le
      have hnat : ((2 * (2 ^ 53 - 1) + 1 : ℕ) : ℚ) = 2 ^ 54 - 1 := by norm_num
      rw [← hnat] at hcast
      exact_mod_cast hcast
    have hle := shifted_le_of_lt hhalf
    rw [hequal]
    exact mul_zpow_le_largest (by omega) le_rfl
  · -- A number with this exponent would not be below the limit.
    obtain ⟨hm, hlog⟩ := ample.log2_eq (by omega)
    have hfull : (2 : ℚ) ^ m.log2 ≤ m := by exact_mod_cast Nat.log2_self_le hm
    refine absurd h (not_lt.2 ?_)
    calc limit ≤ 2 ^ (m.log2 + e) := limit_le_zpow (by omega)
      _ = 2 ^ m.log2 * 2 ^ e := by rw [two_zpow_add, zpow_natCast]
      _ ≤ m * 2 ^ e := mul_le_mul_of_nonneg_right hfull hpos.le

theorem mantissa_decreaseExponent (m : Nat) (e f : ℤ) :
    ((decreaseExponent m e f).1 : ℚ) * 2 ^ (decreaseExponent m e f).2 = m * 2 ^ e := by
  show ((m <<< (e - f).toNat : ℕ) : ℚ) * 2 ^ (e - ((e - f).toNat : ℤ)) = m * 2 ^ e
  rw [Nat.shiftLeft_eq, Nat.cast_mul, Nat.cast_pow, ← zpow_natCast, mul_assoc, Nat.cast_ofNat,
    ← two_zpow_add]
  congr 2
  ring

theorem exponent_decreaseExponent (m : Nat) {e f : ℤ} (h : f ≤ e) :
    (decreaseExponent m e f).2 = f := by
  show e - ((e - f).toNat : ℤ) = f
  omega

theorem log2_shiftLeft {m : Nat} (hm : m ≠ 0) (k : Nat) : (m <<< k).log2 = m.log2 + k := by
  rw [Nat.shiftLeft_eq, Nat.log2_eq_iff (by positivity)]
  constructor
  · rw [pow_add]
    exact Nat.mul_le_mul_right _ (Nat.log2_self_le hm)
  · rw [show m.log2 + k + 1 = m.log2 + 1 + k by ring, pow_add]
    exact Nat.mul_lt_mul_of_pos_right Nat.lt_log2_self (Nat.two_pow_pos k)

/-- A mantissa with too few bits gets more before it is rounded. -/
theorem approximates_round {m : Nat} (s : Sign) (hm : m ≠ 0) (e : ℤ) :
    Approximates (UnpackedFloat.round Format.binary64 s m e) (signed s m e) := by
  have ample : Ample (decreaseExponent m e (lastBit m e)).1
      (decreaseExponent m e (lastBit m e)).2 := by
    show Ample (m <<< (e - lastBit m e).toNat) (e - ((e - lastBit m e).toNat : ℤ))
    unfold Ample
    rw [log2_shiftLeft hm]
    unfold lastBit
    omega
  have hspec := approximates_roundWithAccuracy s ample
  rw [signed_congr s (mantissa_decreaseExponent m e _)] at hspec
  unfold UnpackedFloat.round
  rw [targetExponent_eq]
  exact hspec

/-- **Rounding a signed mantissa**. -/
theorem approximates_normalize (m e : ℤ) (zeroSign : Sign) :
    Approximates (UnpackedFloat.normalize Format.binary64 m e zeroSign) (m * 2 ^ e) := by
  unfold UnpackedFloat.normalize
  rcases lt_trichotomy m 0 with hm | rfl | hm
  · rw [Int.compare_eq_lt.2 hm]
    have hspec := approximates_round .negative (m := (-m).toNat) (by omega) e
    have hcast : ((-m).toNat : ℤ) = -m := by omega
    rwa [signed, hcast, Sign.apply, Int.neg_neg] at hspec
  · refine ⟨trivial, 0, rfl, ?_⟩
    rw [Int.cast_zero, zero_mul]
    exact .refl 0
  · rw [Int.compare_eq_gt.2 hm]
    have hspec := approximates_round .positive (m := m.toNat) (by omega) e
    have hcast : (m.toNat : ℤ) = m := by omega
    rwa [signed, hcast] at hspec

/-! ## Arithmetic -/

variable {u v : UnpackedFloat} {x y : ℚ}

theorem approximates_self (hu : Canonical u) (hx : value? u = some x) : Approximates u x :=
  ⟨hu, x, hx, .refl x⟩

theorem representable_of_canonical (hu : Canonical u) (hx : value? u = some x) :
    Representable x := by
  cases u with
  | notANumber => cases hx
  | infinity s => cases hx
  | zero s =>
    obtain rfl := Option.some.inj hx
    exact representable_zero
  | finite s m e hm =>
    obtain rfl := Option.some.inj hx
    obtain ⟨hlt, hleast, -⟩ := hu
    have hm' : |(m : ℤ)| ≤ 2 ^ 53 := by
      rw [Nat.abs_cast]
      exact_mod_cast hlt.le
    have h : Representable (m * 2 ^ e) := by simpa using representable_mul_zpow hm' hleast
    cases s with
    | positive => exact h
    | negative =>
      rw [signed_negative]
      exact h.neg

/-- A canonical float has an exponent that can be packed unless it is too large. -/
theorem Canonical.le_largest_iff {s : Sign} {m : Nat} {e : ℤ} {hm : 0 < m}
    (h : Canonical (.finite s m e hm)) : (m : ℚ) * 2 ^ e ≤ largest ↔ e ≤ 971 := by
  obtain ⟨hlt, -, hfull⟩ := h
  refine ⟨fun hle => not_lt.1 fun hlarge => absurd hle (not_le.2 ?_), mul_zpow_le_largest hlt⟩
  have hm' : 2 ^ 52 ≤ m := hfull.resolve_right (by omega)
  calc largest < 2 ^ (52 + 972 : ℤ) := largest_lt_zpow (by norm_num)
    _ = 2 ^ 52 * 2 ^ (972 : ℤ) := two_zpow_add 52 972
    _ ≤ m * 2 ^ e := mul_le_mul (by exact_mod_cast hm') (two_zpow_mono (by omega))
        (two_zpow_pos _).le (Nat.cast_nonneg m)

theorem Canonical.neg (h : Canonical u) : Canonical u.neg := by
  cases u <;> exact h

theorem value?_neg (h : value? u = some x) : value? u.neg = some (-x) := by
  cases u with
  | notANumber => cases h
  | infinity s => cases h
  | zero s =>
    obtain rfl := Option.some.inj h
    rw [neg_zero]
    rfl
  | finite s m e hm =>
    obtain rfl := Option.some.inj h
    exact congrArg some (signed_neg s)

theorem sub_eq_add_neg (f : Format) (u v : UnpackedFloat) : u.sub f v = u.add f v.neg := by
  cases u <;> cases v <;> try rfl
  case finite.finite s m e hm s' m' e' hm' =>
    have hneg : ∀ n : ℤ, (-s').apply n = -s'.apply n := by
      intro n
      cases s' with
      | positive => rfl
      | negative => exact (Int.neg_neg n).symm
    show UnpackedFloat.normalize f _ _ _ = UnpackedFloat.normalize f _ _ _
    rw [hneg, Int.sub_eq_add_neg]

/-- **The sum of two floats** is the exact sum after rounding. -/
theorem approximates_add (hu : Canonical u) (hv : Canonical v) (hx : value? u = some x)
    (hy : value? v = some y) : Approximates (u.add Format.binary64 v) (x + y) := by
  cases u with
  | notANumber => cases hx
  | infinity s => cases hx
  | zero s =>
    obtain rfl := Option.some.inj hx
    rw [zero_add]
    cases v with
    | notANumber => cases hy
    | infinity s' => cases hy
    | zero s' =>
      obtain rfl := Option.some.inj hy
      unfold UnpackedFloat.add
      dsimp only
      split_ifs
      · exact approximates_self trivial rfl
      · exact approximates_self trivial rfl
    | finite s' m' e' hm' => exact approximates_self hv hy
  | finite s m e hm =>
    cases v with
    | notANumber => cases hy
    | infinity s' => cases hy
    | zero s' =>
      obtain rfl := Option.some.inj hy
      rw [add_zero]
      exact approximates_self hu hx
    | finite s' m' e' hm' =>
      obtain rfl := Option.some.inj hx
      obtain rfl := Option.some.inj hy
      -- Both mantissas are brought to the smaller exponent, at which they are added exactly.
      have hleft := signed_congr s (mantissa_decreaseExponent m e (min e e'))
      have hright := signed_congr s' (mantissa_decreaseExponent m' e' (min e e'))
      rw [exponent_decreaseExponent _ (min_le_left e e')] at hleft
      rw [exponent_decreaseExponent _ (min_le_right e e')] at hright
      rw [← hleft, ← hright, signed, signed, ← add_mul, ← Int.cast_add]
      exact approximates_normalize _ (min e e') .positive

theorem infinity_add (f : Format) (s : Sign) (hy : value? v = some y) :
    UnpackedFloat.add f (.infinity s) v = .infinity s := by
  cases v with
  | notANumber => cases hy
  | infinity s' => cases hy
  | zero s' => rfl
  | finite s' m e hm => rfl

/-- **The product of two floats** is the exact product after rounding. -/
theorem approximates_mul (s s' : Sign) {m m' : Nat} {e e' : ℤ} (hm : 0 < m) (hm' : 0 < m')
    (ample : Ample (m * m') (e + e')) :
    Approximates (UnpackedFloat.mul Format.binary64 (.finite s m e hm) (.finite s' m' e' hm'))
      (signed (s * s') (m * m') (e + e')) :=
  approximates_roundWithAccuracy (s * s') ample

theorem approximates_mul_one (hx : value? u = some x) :
    Approximates
      (UnpackedFloat.mul Format.binary64 u (.finite .positive (2 ^ 52) (-52) (by decide))) x := by
  cases u with
  | notANumber => cases hx
  | infinity s => cases hx
  | zero s =>
    obtain rfl := Option.some.inj hx
    exact approximates_self trivial rfl
  | finite s m e hm =>
    obtain rfl := Option.some.inj hx
    have ample : Ample (m * 2 ^ 52) (e + -52) :=
      .inl ((Nat.le_log2 (by positivity)).2 (Nat.le_mul_of_pos_left _ hm))
    have hspec := approximates_mul s .positive hm (by decide) ample
    have hsign : s * .positive = s := by cases s <;> rfl
    have hvalue : ((m * 2 ^ 52 : ℕ) : ℚ) * 2 ^ (e + -52) = m * 2 ^ e := by
      have hone : ((2 ^ 52 : ℕ) : ℚ) * 2 ^ (-52 : ℤ) = 1 := by norm_num
      rw [two_zpow_add, Nat.cast_mul, mul_mul_mul_comm, hone, mul_one]
    rwa [hsign, signed_congr s hvalue] at hspec

/-- A natural number is a mantissa that is shifted to the left and rounded. -/
theorem ofScientific_eq {n : Nat} (hn : n ≠ 0) : UnpackedFloat.ofScientific Format.binary64 n 0 =
    roundWithAccuracy Format.binary64 (.positive * .positive) (n <<< 53 * 1) (-53 + 0) .exact := by
  have hlarge : ¬ (0 : ℤ) < -(2 ^ Format.binary64.exponentBits + (n.log2 : ℤ)) := by
    have : (0 : ℤ) < 2 ^ Format.binary64.exponentBits := by positivity
    omega
  unfold UnpackedFloat.ofScientific
  rw [dif_neg hn, if_neg (by decide), if_neg hlarge, if_pos le_rfl]
  rfl

theorem ample_shiftLeft {n : Nat} (hn : n ≠ 0) (e : ℤ) : Ample (n <<< 53 * 1) e := by
  left
  rw [mul_one, log2_shiftLeft hn]
  omega

theorem shiftLeft_mul_zpow (n : Nat) : ((n <<< 53 * 1 : ℕ) : ℚ) * 2 ^ (-53 + 0 : ℤ) = n := by
  rw [mul_one, Nat.shiftLeft_eq, add_zero, Nat.cast_mul, mul_assoc]
  norm_num

/-- **A natural number** is rounded to a float. -/
theorem approximates_ofScientific {n : Nat} (hn : n ≠ 0) :
    Approximates (UnpackedFloat.ofScientific Format.binary64 n 0) n := by
  have hspec := approximates_roundWithAccuracy (.positive * .positive)
    (ample_shiftLeft hn (-53 + 0))
  have hvalue : signed (.positive * .positive) (n <<< 53 * 1) (-53 + 0) = n := shiftLeft_mul_zpow n
  rwa [hvalue, ← ofScientific_eq hn] at hspec

theorem ofScientific_le_largest {n : Nat} (hn : n ≠ 0) (h : (n : ℚ) < limit)
    (hy : value? (UnpackedFloat.ofScientific Format.binary64 n 0) = some y) : |y| ≤ largest := by
  rw [ofScientific_eq hn] at hy
  rw [← shiftLeft_mul_zpow n] at h
  exact abs_le_largest_of_lt (ample_shiftLeft hn _) h hy

end OptimalMatching.Binary64
