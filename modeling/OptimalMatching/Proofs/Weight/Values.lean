import OptimalMatching.Proofs.Weight.Float
/-!
# Weights as rational numbers

A weight that is finite denotes a rational number, by which it is compared (`Weight.lt_iff`,
`Weight.isZero_iff`). A weight that is not finite may still be *an amount*, if it is infinite and
not negative. Amounts are compared with infinity as the greatest (`Weight.lt_iff_amount`).

Of several weights that are compared in such a way the least one is found (`Weight.least?_spec`).
-/

namespace OptimalMatching

/-! ## Comparison -/

theorem Exact.compare_eq (m q m' q' : ℤ) : (Exact.finite m q).compare (.finite m' q') =
    cmp ((m : ℚ) * 2 ^ q) (m' * 2 ^ q') := by
  -- Both numbers are brought to the lower of the two exponents.
  have hscale : ∀ {m q low : ℤ}, low ≤ q →
      (m : ℚ) * 2 ^ q = (m * twoTo (q - low).toNat : ℤ) * 2 ^ low := by
    intro m q low h
    have htwo : ((twoTo (q - low).toNat : ℕ) : ℚ) = 2 ^ (q - low).toNat := by
      simp [twoTo]
    have hsplit : q = ((q - low).toNat : ℤ) + low := by omega
    conv_lhs => rw [hsplit, two_zpow_add, zpow_natCast, ← mul_assoc]
    push_cast
    rw [htwo]
  have hpos := two_zpow_pos (min q q')
  rw [hscale (min_le_left q q'), hscale (min_le_right q q')]
  show Ord.compare _ _ = _
  generalize m * (twoTo (q - min q q').toNat : ℤ) = a
  generalize m' * (twoTo (q' - min q q').toNat : ℤ) = b
  rcases lt_trichotomy a b with h | rfl | h
  · rw [Int.compare_eq_lt.2 h]
    refine (cmp_eq_lt_iff _ _).2 ?_ |>.symm
    exact mul_lt_mul_of_pos_right (by exact_mod_cast h) hpos
  · simp
  · rw [Int.compare_eq_gt.2 h]
    refine (cmp_eq_gt_iff _ _).2 ?_ |>.symm
    exact mul_lt_mul_of_pos_right (by exact_mod_cast h) hpos

namespace Weight

/-- The weight is a finite number. -/
def IsFinite (w : Weight) : Prop := w.value?.isSome

/-- The rational number that a finite weight denotes. -/
def num (w : Weight) : ℚ := w.value?.getD 0

variable {a b w : Weight}

theorem finite_iff : w.IsFinite ↔ w.value? = some w.num := by
  unfold IsFinite num
  cases w.value? <;> simp

theorem finite_of_value? {x : ℚ} (h : w.value? = some x) : w.IsFinite ∧ w.num = x := by
  simp [IsFinite, num, h]

@[simp] theorem finite_int (n : ℤ) : (int n).IsFinite := by simp [IsFinite]

@[simp] theorem num_int (n : ℤ) : (int n).num = n := by simp [num]

theorem compare?_eq (ha : a.IsFinite) (hb : b.IsFinite) :
    a.compare? b = some (cmp a.num b.num) := by
  rw [finite_iff] at ha hb
  unfold value? at ha hb
  obtain ⟨x, hx, hx'⟩ := Option.bind_eq_some_iff.1 ha
  obtain ⟨y, hy, hy'⟩ := Option.bind_eq_some_iff.1 hb
  cases x with
  | infinite s => cases hx'
  | finite m q =>
    cases y with
    | infinite s => cases hy'
    | finite m' q' =>
      unfold compare?
      rw [hx, hy, ← Option.some.inj hx', ← Option.some.inj hy']
      exact congrArg some (Exact.compare_eq m q m' q')

/-- **Finite weights are compared** as the numbers that they denote. -/
theorem lt_iff (ha : a.IsFinite) (hb : b.IsFinite) : a.lt b = true ↔ a.num < b.num := by
  rw [lt, compare?_eq ha hb, decide_eq_true_iff, Option.some_inj]
  exact cmp_eq_lt_iff _ _

theorem le_iff (ha : a.IsFinite) (hb : b.IsFinite) : a.le b = true ↔ a.num ≤ b.num := by
  rw [le, compare?_eq ha hb, decide_eq_true_iff, Option.some_inj, Option.some_inj, cmp_eq_lt_iff,
    cmp_eq_eq_iff, le_iff_lt_or_eq]

theorem isZero_iff (ha : a.IsFinite) : a.isZero = true ↔ a.num = 0 := by
  rw [isZero, sameNumber, compare?_eq ha (finite_int 0), decide_eq_true_iff, Option.some_inj,
    cmp_eq_eq_iff, num_int, Int.cast_zero]

/-! ## Infinity -/

/-- The weight is a finite number that is not negative, or infinity. -/
def IsAmount (w : Weight) : Prop := w.IsFinite ∧ 0 ≤ w.num ∨ w.IsInfinity

/-- The amount that a weight stands for. -/
def amount (w : Weight) : WithTop ℚ := w.value?.elim ⊤ fun x => (x : WithTop ℚ)

theorem amount_of_finite (h : w.IsFinite) : w.amount = (w.num : WithTop ℚ) := by
  rw [amount, finite_iff.1 h]
  rfl

theorem amount_of_infinity (h : w.IsInfinity) : w.amount = ⊤ := by
  rw [amount, value?, h]
  rfl

theorem exists_number? (h : w.IsFinite) : ∃ m q, w.number? = some (.finite m q) := by
  obtain ⟨x, hx, hx'⟩ := Option.bind_eq_some_iff.1 (finite_iff.1 h)
  cases x with
  | finite m q => exact ⟨m, q, hx⟩
  | infinite s => cases hx'

theorem not_finite_of_infinity (h : w.IsInfinity) : ¬ w.IsFinite := by
  intro finite
  obtain ⟨m, q, hm⟩ := exists_number? finite
  cases hm.symm.trans h

theorem IsAmount.nonneg (h : w.IsAmount) (finite : w.IsFinite) : 0 ≤ w.num := by
  rcases h with ⟨-, nonneg⟩ | h
  · exact nonneg
  · exact absurd finite (not_finite_of_infinity h)

theorem lt_infinity (ha : a.IsFinite) (hb : b.IsInfinity) : a.lt b = true := by
  obtain ⟨m, q, hm⟩ := exists_number? ha
  rw [lt, compare?, hm, hb]
  rfl

theorem infinity_lt (ha : a.IsInfinity) (hb : b.IsAmount) : a.lt b = false := by
  rcases hb with ⟨finite, -⟩ | hb
  · obtain ⟨m, q, hm⟩ := exists_number? finite
    rw [lt, compare?, hm, ha]
    rfl
  · rw [lt, compare?, hb, ha]
    rfl

/-- **Amounts are compared** with infinity as the greatest. -/
theorem lt_iff_amount (ha : a.IsAmount) (hb : b.IsAmount) :
    a.lt b = true ↔ a.amount < b.amount := by
  rcases ha with ⟨ha, -⟩ | ha
  · rw [amount_of_finite ha]
    rcases hb with ⟨hb, -⟩ | hb
    · rw [amount_of_finite hb, WithTop.coe_lt_coe]
      exact lt_iff ha hb
    · rw [amount_of_infinity hb]
      exact iff_of_true (lt_infinity ha hb) (WithTop.coe_lt_top _)
  · rw [infinity_lt ha hb, amount_of_infinity ha]
    exact iff_of_false Bool.false_ne_true not_top_lt

theorem isZero_iff_of_amount (h : w.IsAmount) : w.isZero = true ↔ w.IsFinite ∧ w.num = 0 := by
  rcases h with ⟨finite, -⟩ | h
  · rw [isZero_iff finite]
    exact (and_iff_right finite).symm
  · refine iff_of_false ?_ fun finite => not_finite_of_infinity h finite.1
    rw [isZero, sameNumber, compare?, h]
    exact Bool.false_ne_true

/-! ## The least of several weights -/

/-- **The least of several weights** that are compared as the values of a function is one of
them. -/
theorem least?_spec {α : Type} [LinearOrder α] (f : Weight → α) {l : List Weight} (ne : l ≠ [])
    (lt : ∀ a ∈ l, ∀ b ∈ l, a.lt b = true ↔ f a < f b) :
    ∃ w, least? l = some w ∧ w ∈ l ∧ ∀ w' ∈ l, f w ≤ f w' := by
  cases l with
  | nil => exact absurd rfl ne
  | cons first rest =>
    refine ⟨least first rest, rfl, ?_⟩
    -- Over the weights that are left, for any weight that is the least so far.
    induction rest generalizing first with
    | nil => simp [least]
    | cons w rest ih =>
      have hstep : least first (w :: rest) = least (if w.lt first then w else first) rest := rfl
      have hiff := lt w (List.mem_cons_of_mem _ List.mem_cons_self) first List.mem_cons_self
      rw [hstep]
      by_cases hlt : w.lt first = true
      · have hsub : w :: rest ⊆ first :: w :: rest := List.subset_cons_self ..
        rw [if_pos hlt]
        obtain ⟨hmem, hle⟩ := ih w (by simp) fun a ha b hb => lt a (hsub ha) b (hsub hb)
        refine ⟨hsub hmem, List.forall_mem_cons.2 ⟨?_, hle⟩⟩
        exact (hle w List.mem_cons_self).trans (hiff.1 hlt).le
      · have hsub : first :: rest ⊆ first :: w :: rest :=
          List.cons_subset_cons _ (List.subset_cons_self ..)
        rw [if_neg hlt]
        obtain ⟨hmem, hle⟩ := ih first (by simp) fun a ha b hb => lt a (hsub ha) b (hsub hb)
        rw [List.forall_mem_cons] at hle
        exact ⟨hsub hmem, List.forall_mem_cons.2
          ⟨hle.1, List.forall_mem_cons.2 ⟨hle.1.trans (not_lt.1 (mt hiff.2 hlt)), hle.2⟩⟩⟩

end Weight

end OptimalMatching
