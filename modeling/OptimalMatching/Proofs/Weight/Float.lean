import OptimalMatching.Proofs.Weight.Unpacked
import OptimalMatching.Weight.Basic
/-!
# The numbers that floats denote

A float is packed into 64 bits. **Packing** loses nothing of a canonical float that is not too large
(`Binary64.unpack_pack`), and otherwise it gives an infinity (`Binary64.unpack_pack_of_large`). The
fields into which a float is taken apart for comparison are those that unpacking finds
(`Binary64.unpack_eq_parts`).

So the weight of a float denotes the number that the unpacked float stands for. The sum and the
difference of two floats are rounded as long as the exact result is not too large
(`Weight.approximates_add`, `Weight.approximates_sub`). A sum that is too large and not negative is
infinite (`Weight.add_approximates_or_infinity`), and then it stays so. An integer of a magnitude
below the limit is rounded when it becomes a float (`Weight.approximates_ofInt`).
-/

namespace OptimalMatching

open Float.Model (Format UnpackedFloat)
open Float.Model.UnpackedFloat (Sign packComponents unpackSign unpackExponent unpackMantissa
  unpackExponent_packComponents unpackMantissa_packComponents)

namespace Binary64

variable {s : Sign} {m x f : Nat} {e : ℤ}

/-! ## Unpacking -/

/-- What the fields of a float stand for: its sign, its exponent and its fraction. -/
def ofFields (s : Sign) (x f : Nat) : UnpackedFloat :=
  if x = 2047 then if f = 0 then .infinity s else .notANumber
  else if x = 0 then assemble s f (-1074)
  else assemble s (2 ^ 52 + f) (x - 1075)

theorem canonical_ofFields (hx : x < 2048) (hf : f < 2 ^ 52) : Canonical (ofFields s x f) := by
  unfold ofFields
  split_ifs with hspecial hnone hleast
  · trivial
  · trivial
  · exact canonical_assemble (by omega) le_rfl (.inr rfl)
  · exact canonical_assemble (by omega) (by omega) (.inl (by omega))

theorem finite_congr {s' : Sign} {m' : Nat} {e' : ℤ} {h : 0 < m} {h' : 0 < m'} (hs : s = s')
    (hm : m = m') (he : e = e') : UnpackedFloat.finite s m e h = .finite s' m' e' h' := by
  subst hs hm he
  rfl

/-- **Unpacking** reads the fields. -/
theorem unpack_eq_ofFields (b : BitVec 64) : UnpackedFloat.unpack Format.binary64 b =
    ofFields (.ofBitVec (@unpackSign Format.binary64 b)) (@unpackExponent Format.binary64 b).toNat
      (@unpackMantissa Format.binary64 b).toNat := by
  have hspecial : @unpackExponent Format.binary64 b = -1#11 ↔
      (@unpackExponent Format.binary64 b).toNat = 2047 := by
    rw [← BitVec.toNat_inj]
    rfl
  have hleast : @unpackExponent Format.binary64 b = 0#11 ↔
      (@unpackExponent Format.binary64 b).toNat = 0 := by
    rw [← BitVec.toNat_inj]
    rfl
  have hnone : @unpackMantissa Format.binary64 b = 0#52 ↔
      (@unpackMantissa Format.binary64 b).toNat = 0 := by
    rw [← BitVec.toNat_inj]
    rfl
  unfold UnpackedFloat.unpack ofFields assemble
  dsimp only
  by_cases h2047 : @unpackExponent Format.binary64 b = -1#11
  · rw [if_pos h2047, if_pos (hspecial.1 h2047)]
    simp only [hnone]
  · rw [if_neg h2047, if_neg (mt hspecial.2 h2047)]
    by_cases h0 : @unpackExponent Format.binary64 b = 0#11
    · rw [if_pos h0, if_pos (hleast.1 h0)]
      by_cases hf : @unpackMantissa Format.binary64 b = 0#52
      · rw [dif_pos hf, dif_pos (hnone.1 hf)]
      · rw [dif_neg hf, dif_neg (mt hnone.2 hf)]
        refine finite_congr rfl rfl ?_
        rw [h0]
        rfl
    · rw [if_neg h0, if_neg (mt hleast.2 h0), dif_neg (by omega)]
      refine finite_congr rfl ?_ rfl
      -- A normal number has the implicit bit in front of its mantissa.
      rw [BitVec.toNat_append, ← Nat.shiftLeft_add_eq_or_of_lt (BitVec.isLt _)]
      rfl

theorem toNat_unpackMantissa (b : BitVec 64) :
    (@unpackMantissa Format.binary64 b).toNat = b.toNat % 2 ^ 52 := by
  unfold unpackMantissa
  rw [BitVec.toNat_cast, BitVec.extractLsb_toNat, Nat.shiftRight_zero]
  rfl

theorem toNat_unpackExponent (b : BitVec 64) :
    (@unpackExponent Format.binary64 b).toNat = b.toNat / 2 ^ 52 % 2 ^ 11 := by
  unfold unpackExponent
  rw [BitVec.toNat_cast, BitVec.extractLsb_toNat, Nat.shiftRight_eq_div_pow]
  rfl

theorem toNat_unpackSign (b : BitVec 64) :
    (@unpackSign Format.binary64 b).toNat = b.toNat / 2 ^ 63 % 2 := by
  unfold unpackSign
  rw [BitVec.toNat_cast, BitVec.extractLsb_toNat, Nat.shiftRight_eq_div_pow]
  rfl

/-- The sign of a float that has been taken apart. -/
def signOf (p : FloatParts) : Sign := if p.negative then .negative else .positive

/-- **The fields of a float** are those that it is taken apart into. -/
theorem unpack_eq_parts (x : Float) : x.toModel.unpack = ofFields (signOf (.ofFloat x))
    (FloatParts.ofFloat x).exponent (FloatParts.ofFloat x).fraction := by
  have hexponent : (@unpackExponent Format.binary64 x.toModel.toBits.toBitVec).toNat =
      (FloatParts.ofFloat x).exponent := toNat_unpackExponent _
  have hfraction : (@unpackMantissa Format.binary64 x.toModel.toBits.toBitVec).toNat =
      (FloatParts.ofFloat x).fraction := toNat_unpackMantissa _
  have hsign : Sign.ofBitVec (@unpackSign Format.binary64 x.toModel.toBits.toBitVec) =
      signOf (.ofFloat x) := by
    have hbit : (@unpackSign Format.binary64 x.toModel.toBits.toBitVec).toNat =
        x.toBits.toNat / 2 ^ 63 % 2 := toNat_unpackSign _
    have hnegative : (FloatParts.ofFloat x).negative = true ↔ x.toBits.toNat / 2 ^ 63 % 2 = 1 :=
      decide_eq_true_iff
    have hzero : @unpackSign Format.binary64 x.toModel.toBits.toBitVec = 0#1 ↔
        x.toBits.toNat / 2 ^ 63 % 2 = 0 := by
      rw [← BitVec.toNat_inj, hbit]
      rfl
    unfold Sign.ofBitVec signOf
    simp only [hzero, hnegative]
    split_ifs <;> first | rfl | omega
  rw [← hexponent, ← hfraction, ← hsign]
  exact unpack_eq_ofFields _

theorem canonical_unpack (x : Float) : Canonical x.toModel.unpack := by
  rw [unpack_eq_parts]
  exact canonical_ofFields (Nat.mod_lt _ (by decide)) (Nat.mod_lt _ (by decide))

/-- **No float** holds more than the greatest one. -/
theorem abs_le_largest_of_unpack {a : Float} {y : ℚ} (hy : value? a.toModel.unpack = some y) :
    |y| ≤ largest := by
  have hexponent : (FloatParts.ofFloat a).exponent < 2048 := Nat.mod_lt _ (by decide)
  have hfraction : (FloatParts.ofFloat a).fraction < 2 ^ 52 := Nat.mod_lt _ (by decide)
  rw [unpack_eq_parts] at hy
  generalize FloatParts.ofFloat a = p at *
  unfold ofFields at hy
  split_ifs at hy with hspecial hnone hleast
  · cases hy
  · cases hy
  · rw [value?_assemble] at hy
    obtain rfl := Option.some.inj hy
    rw [abs_signed]
    exact mul_zpow_le_largest (by omega) (by norm_num)
  · rw [value?_assemble] at hy
    obtain rfl := Option.some.inj hy
    rw [abs_signed]
    exact mul_zpow_le_largest (by omega) (by omega)

/-! ## Packing -/

theorem unpackSign_packComponents {spec : Format} {exponent mantissa} :
    unpackSign (packComponents spec s exponent mantissa) = s.toBitVec := by
  ext i hi
  obtain rfl : i = 0 := by omega
  simp [unpackSign, packComponents, BitVec.getLsbD_append, BitVec.getElem_append]

theorem unpack_packComponents (s : Sign) (x f : Nat) :
    UnpackedFloat.unpack Format.binary64
        (packComponents Format.binary64 s (BitVec.ofNat 11 x) (BitVec.ofNat 52 f)) =
      ofFields s (x % 2 ^ 11) (f % 2 ^ 52) := by
  have hsign : Sign.ofBitVec s.toBitVec = s := by cases s <;> rfl
  refine (unpack_eq_ofFields _).trans ?_
  simp only [unpackExponent_packComponents, unpackMantissa_packComponents,
    unpackSign_packComponents, hsign, BitVec.toNat_ofNat]

theorem add_bias (e : ℤ) : e + (Format.binary64.exponentBias : ℤ) +
    (Format.binary64.mantissaBitsWithoutImplicit : ℤ) = e + 1075 := by
  show e + 1023 + 52 = e + 1075
  ring

theorem unpack_pack_finite {hm : 0 < m} (canonical : Canonical (.finite s m e hm))
    (fits : e ≤ 971) : (Float.Model.pack (.finite s m e hm)).unpack = .finite s m e hm := by
  obtain ⟨hlt, hleast, hfull⟩ := canonical
  have hbits : m.log2 + 1 = Format.binary64.mantissaBits ↔ 2 ^ 52 ≤ m := by
    show m.log2 + 1 = 53 ↔ _
    have hlog : m.log2 = 52 ↔ 2 ^ 52 ≤ m ∧ m < 2 ^ 53 := Nat.log2_eq_iff hm.ne'
    omega
  show UnpackedFloat.unpack Format.binary64
    (UnpackedFloat.pack Format.binary64 (.finite s m e hm)) = _
  unfold UnpackedFloat.pack
  dsimp only
  rw [add_bias, if_neg (show ¬ 2 ^ 11 ≤ (e + 1075).toNat + 1 by omega)]
  by_cases hnormal : 2 ^ 52 ≤ m
  · rw [if_pos (hbits.2 hnormal)]
    refine (unpack_packComponents s _ m).trans ?_
    unfold ofFields assemble
    rw [if_neg (by omega), if_neg (by omega), dif_neg (by omega)]
    exact finite_congr rfl (by omega) (by omega)
  · rw [if_neg (mt hbits.1 hnormal)]
    refine (unpack_packComponents s 0 m).trans ?_
    have he := hfull.resolve_left hnormal
    unfold ofFields assemble
    rw [if_neg (by decide), if_pos (by decide), dif_neg (by omega)]
    exact finite_congr rfl (by omega) he.symm

theorem unpack_pack_zero (s : Sign) : (Float.Model.pack (.zero s)).unpack = .zero s := by
  cases s <;> rfl

theorem unpack_pack_infinity (s : Sign) :
    (Float.Model.pack (.infinity s)).unpack = .infinity s := by
  cases s <;> rfl

variable {u : UnpackedFloat} {y : ℚ}

/-- **Packing** loses nothing of a canonical float that is not too large. -/
theorem unpack_pack (canonical : Canonical u) (hy : value? u = some y) (small : |y| ≤ largest) :
    (Float.Model.pack u).unpack = u := by
  cases u with
  | notANumber => cases hy
  | infinity s => cases hy
  | zero s => exact unpack_pack_zero s
  | finite s m e hm =>
    obtain rfl := Option.some.inj hy
    rw [abs_signed] at small
    exact unpack_pack_finite canonical (canonical.le_largest_iff.1 small)

/-- **Packing** a number that is too large gives an infinity. -/
theorem unpack_pack_of_large (canonical : Canonical u) (hy : value? u = some y)
    (large : largest < y) : (Float.Model.pack u).unpack = .infinity .positive := by
  have hpos := largest_pos.trans large
  cases u with
  | notANumber => cases hy
  | infinity s => cases hy
  | zero s =>
    obtain rfl := Option.some.inj hy
    exact absurd hpos (lt_irrefl 0)
  | finite s m e hm =>
    obtain rfl := Option.some.inj hy
    have hnonneg : (0 : ℚ) ≤ m * 2 ^ e := mul_nonneg (Nat.cast_nonneg m) (two_zpow_pos e).le
    cases s with
    | negative =>
      -- A negative number is not above the largest one.
      rw [signed_negative] at hpos
      linarith
    | positive =>
      have he : ¬ e ≤ 971 := mt canonical.le_largest_iff.2 (not_le.2 large)
      show UnpackedFloat.unpack Format.binary64
        (UnpackedFloat.pack Format.binary64 (.finite .positive m e hm)) = _
      unfold UnpackedFloat.pack
      dsimp only
      rw [add_bias, if_pos (show 2 ^ 11 ≤ (e + 1075).toNat + 1 by omega)]
      exact unpack_pack_infinity .positive

end Binary64

/-! ## Weights -/

/-- The rational number that an exact number is, unless it is infinite. -/
def Exact.value? : Exact → Option ℚ
  | .finite m q => some (m * 2 ^ q)
  | .infinite _ => none

namespace Weight

/-- The rational number that a weight denotes, if it is a finite number. -/
def value? (w : Weight) : Option ℚ := w.number?.bind Exact.value?

/-- The weight denotes a number after rounding. -/
def Approximates (w : Weight) (x : ℚ) : Prop := ∃ y, w.value? = some y ∧ Rounds x y

variable {u : UnpackedFloat} {a b : Float} {x y : ℚ}

@[simp] theorem value?_int (n : ℤ) : (int n).value? = some (n : ℚ) := by
  simp [value?, number?, Exact.ofInt, Exact.value?]

theorem value?_float (x : Float) : (float x).value? = Binary64.value? x.toModel.unpack := by
  rw [Binary64.unpack_eq_parts]
  unfold value? number? Exact.ofFloat? FloatParts.isSpecial FloatParts.significand FloatParts.scale
    Binary64.ofFields Binary64.signOf
  dsimp only
  generalize FloatParts.ofFloat x = p
  by_cases hspecial : p.exponent = 2047
  · simp only [hspecial, decide_true, if_true]
    split_ifs <;> rfl
  · simp only [hspecial, decide_false, if_false, Bool.false_eq_true]
    split_ifs <;> rw [Binary64.value?_assemble] <;> rfl

/-- The weight is infinite, and not negative. -/
def IsInfinity (w : Weight) : Prop := w.number? = some (.infinite false)

theorem isInfinity_float (x : Float) :
    (float x).IsInfinity ↔ x.toModel.unpack = .infinity .positive := by
  rw [Binary64.unpack_eq_parts]
  unfold IsInfinity number? Exact.ofFloat? FloatParts.isSpecial Binary64.ofFields Binary64.signOf
    Binary64.assemble
  dsimp only
  generalize FloatParts.ofFloat x = p
  by_cases hspecial : p.exponent = 2047
  · simp only [hspecial, decide_true, if_true]
    split_ifs <;> simp_all
  · simp only [hspecial, decide_false, if_false, Bool.false_eq_true]
    split_ifs <;> simp

/-! ### Packing what an operation gives -/

theorem approximates_pack (h : Binary64.Approximates u x)
    (small : ∀ y, Binary64.value? u = some y → |y| ≤ largest) :
    Approximates (float (.ofModel (.pack u))) x := by
  obtain ⟨canonical, y, hy, rounds⟩ := h
  refine ⟨y, ?_, rounds⟩
  rw [value?_float, ← hy]
  exact congrArg Binary64.value? (Binary64.unpack_pack canonical hy (small y hy))

theorem approximates_pack_of_le (h : Binary64.Approximates u x) (small : |x| ≤ largest) :
    Approximates (float (.ofModel (.pack u))) x := by
  refine approximates_pack h fun y hy => ?_
  obtain ⟨-, y', hy', rounds⟩ := h
  obtain rfl := Option.some.inj (hy'.symm.trans hy)
  exact rounds.abs_le_largest small

/-- A number of any size that is not negative. -/
theorem approximates_or_infinity (h : Binary64.Approximates u x) (nonneg : 0 ≤ x) :
    Approximates (float (.ofModel (.pack u))) x ∨ (float (.ofModel (.pack u))).IsInfinity := by
  obtain ⟨canonical, y, hy, rounds⟩ := h
  rcases le_or_gt y largest with hle | hlt
  · refine .inl (approximates_pack ⟨canonical, y, hy, rounds⟩ fun y' hy' => ?_)
    obtain rfl := Option.some.inj (hy.symm.trans hy')
    rwa [abs_of_nonneg (rounds.nonneg nonneg)]
  · exact .inr ((isInfinity_float _).2 (Binary64.unpack_pack_of_large canonical hy hlt))

/-! ### Sums and differences -/

/-- Two floats are added exactly and rounded. -/
theorem approximates_unpacked_add (hx : (float a).value? = some x)
    (hy : (float b).value? = some y) :
    Binary64.Approximates (a.toModel.unpack.add Format.binary64 b.toModel.unpack) (x + y) := by
  rw [value?_float] at hx hy
  exact Binary64.approximates_add (Binary64.canonical_unpack a) (Binary64.canonical_unpack b) hx hy

theorem approximates_unpacked_sub (hx : (float a).value? = some x)
    (hy : (float b).value? = some y) :
    Binary64.Approximates (a.toModel.unpack.sub Format.binary64 b.toModel.unpack) (x - y) := by
  rw [value?_float] at hx hy
  rw [Binary64.sub_eq_add_neg, sub_eq_add_neg]
  exact Binary64.approximates_add (Binary64.canonical_unpack a) (Binary64.canonical_unpack b).neg hx
    (Binary64.value?_neg hy)

/-- **The sum of two floats** is rounded. -/
theorem approximates_add (hx : (float a).value? = some x) (hy : (float b).value? = some y)
    (small : |x + y| ≤ largest) : Approximates (float (a + b)) (x + y) :=
  approximates_pack_of_le (approximates_unpacked_add hx hy) small

/-- **The sum of two floats** is infinite when it is too large. -/
theorem add_approximates_or_infinity (hx : (float a).value? = some x)
    (hy : (float b).value? = some y) (nonneg : 0 ≤ x + y) :
    Approximates (float (a + b)) (x + y) ∨ (float (a + b)).IsInfinity :=
  approximates_or_infinity (approximates_unpacked_add hx hy) nonneg

/-- **The difference of two floats** is rounded. -/
theorem approximates_sub (hx : (float a).value? = some x) (hy : (float b).value? = some y)
    (small : |x - y| ≤ largest) : Approximates (float (a - b)) (x - y) :=
  approximates_pack_of_le (approximates_unpacked_sub hx hy) small

theorem isInfinity_add (ha : (float a).IsInfinity) (hb : (float b).value? = some y) :
    (float (a + b)).IsInfinity := by
  rw [isInfinity_float] at ha ⊢
  rw [value?_float] at hb
  show (Float.Model.pack (a.toModel.unpack.add Format.binary64 b.toModel.unpack)).unpack = _
  rw [ha, Binary64.infinity_add _ _ hb]
  exact Binary64.unpack_pack_infinity .positive

theorem isInfinity_sub (ha : (float a).IsInfinity) (hb : (float b).value? = some y) :
    (float (a - b)).IsInfinity := by
  rw [isInfinity_float] at ha ⊢
  rw [value?_float] at hb
  show (Float.Model.pack (a.toModel.unpack.sub Format.binary64 b.toModel.unpack)).unpack = _
  rw [ha, Binary64.sub_eq_add_neg, Binary64.infinity_add _ _ (Binary64.value?_neg hb)]
  exact Binary64.unpack_pack_infinity .positive

theorem abs_le_largest_of_value? (h : (float a).value? = some x) : |x| ≤ largest := by
  rw [value?_float] at h
  exact Binary64.abs_le_largest_of_unpack h

theorem value?_neg (h : (float a).value? = some x) : (float a.neg).value? = some (-x) := by
  have small := abs_le_largest_of_value? h
  rw [value?_float] at h
  rw [← abs_neg] at small
  have hneg := Binary64.value?_neg h
  rw [value?_float, ← hneg]
  exact congrArg Binary64.value?
    (Binary64.unpack_pack (Binary64.canonical_unpack a).neg hneg small)

/-! ### Integers -/

theorem cast_floatLimit : ((floatLimit : ℕ) : ℚ) = limit := by
  have h : floatLimit = (2 ^ 54 - 1) * 2 ^ 970 := by decide +kernel
  rw [h, limit, Nat.cast_mul, Nat.cast_pow, ← zpow_natCast]
  norm_num

section

variable {n : Nat} (hn : n < 2 ^ 53)
include hn

theorem representable_natCast : Representable n := by
  have h : |(n : ℤ)| ≤ 2 ^ 53 := by
    rw [Nat.abs_cast]
    exact_mod_cast hn.le
  simpa using representable_intCast h

theorem abs_natCast_le_largest : |(n : ℚ)| ≤ largest := by
  have h := Binary64.mul_zpow_le_largest hn (e := 0) (by norm_num)
  rwa [zpow_zero, mul_one, ← Nat.abs_cast] at h

end

theorem value?_toFloat {n : Nat} (hn : n < 2 ^ 53) :
    (float n.toUInt64.toFloat).value? = some (n : ℚ) := by
  have hcast : n.toUInt64.toNat = n := by
    show n % 2 ^ 64 = n
    omega
  have h : Binary64.Approximates (.ofUInt64 Format.binary64 n.toUInt64) n := by
    show Binary64.Approximates
      (UnpackedFloat.normalize Format.binary64 (n.toUInt64.toNat : ℕ) 0 .positive) n
    rw [hcast]
    simpa using Binary64.approximates_normalize n 0 .positive
  obtain ⟨y, hy, rounds⟩ := approximates_pack_of_le h (abs_natCast_le_largest hn)
  rwa [rounds.eq_of_representable (representable_natCast hn)] at hy

/-- **A natural number** below the limit becomes the float next to it. -/
theorem approximates_ofNat {n : Nat} (small : n < floatLimit) :
    Approximates (float (.ofNat n)) n := by
  have hscientific : Float.ofNat n = Float.ofScientific n false 0 := rfl
  rw [hscientific]
  unfold Float.ofScientific
  dsimp only
  by_cases hn : n < 2 ^ 53
  · -- A small number goes through a product with one, and any other one is read from its digits.
    rw [dif_pos ⟨hn, by decide⟩, if_neg (by decide)]
    have hx := value?_toFloat hn
    rw [value?_float] at hx
    have hone : (Float.ofBits 0x3ff0000000000000).toModel.unpack =
      .finite .positive (2 ^ 52) (-52) (by decide) := by rfl
    have h := Binary64.approximates_mul_one hx
    rw [← hone] at h
    exact approximates_pack_of_le h (abs_natCast_le_largest hn)
  · rw [dif_neg (fun h => hn h.1), if_neg (by decide)]
    have hzero : n ≠ 0 := by omega
    have hlimit : (n : ℚ) < limit := by
      rw [← cast_floatLimit]
      exact_mod_cast small
    exact approximates_pack (Binary64.approximates_ofScientific hzero) fun y =>
      Binary64.ofScientific_le_largest hzero hlimit

/-- **An integer** of a magnitude below the limit becomes the float next to it. -/
theorem approximates_ofInt {n : ℤ} (small : n.natAbs < floatLimit) :
    Approximates (float (.ofInt n)) n := by
  cases n with
  | ofNat n =>
    rw [Int.ofNat_eq_natCast, Int.cast_natCast]
    exact approximates_ofNat small
  | negSucc n =>
    rw [Int.cast_negSucc]
    obtain ⟨y, hy, rounds⟩ := approximates_ofNat (n := n + 1) small
    exact ⟨-y, value?_neg hy, rounds.neg⟩

end Weight

end OptimalMatching
