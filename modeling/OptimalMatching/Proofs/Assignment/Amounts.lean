import OptimalMatching.Proofs.Assignment.Excess
import OptimalMatching.Proofs.Weight.Arithmetic
/-!
# The excess of costs of any kind

When floats are added, the excess is rounded, and it may come to be infinite. So it is no longer the
costs less potentials. What remains is that each excess is an amount, and that it is finite where an
exposed row meets an exposed column (`Costs.Sound`). The first choice of potentials makes it so
(`Costs.excess?_spec`).

**An adjustment** is by the least uncovered excess. The cells of exposed rows and exposed columns
are not covered, so this excess is finite (`Costs.Sound.exists_slack`). It is subtracted only from
cells that have at least as much and from those that it has just been added to. Hence nothing comes
up that is negative or not a number, and what is finite becomes infinite only where it is raised
(`Costs.Slack.sound_adjusted`).

**Tight cells.** The least uncovered excess becomes zero when it is subtracted from itself, and a
zero that is covered once stays a zero, even where it is raised and lowered again
(`Costs.Slack.tightening`). Whether an adjustment is made at all is left open here: there is none
when an integer is too large to be combined with a float.
-/

namespace OptimalMatching

open Weight

variable {n : Nat}

/-! ## One cell -/

namespace Weight

/-- What an adjustment by `d` makes of the excess `c` of a cell, of whose lines it is told whether
they are covered. -/
def adjusted? (row column : Bool) (c d : Weight) : Option Weight := do
  let raised ← if row then c.add? d else some c
  if column then return raised else raised.sub? d

variable {row column : Bool} {c d w : Weight}

/-- An excess before and after an adjustment by `d`. -/
structure Adjusted (row column : Bool) (c d w : Weight) : Prop where
  amount : w.IsAmount
  /-- A zero stays where there is one covering line. -/
  kept : row ≠ column → c.isZero = true → w.isZero = true
  lowered : row = false → column = false → c.IsFinite → Lowered c d w
  near : c.IsFinite → c.num ≤ safe → d.num ≤ safe →
    w.IsFinite ∧ w.num ≤ c.num + d.num + roundoff

theorem isInfinity_of_adjusted? (hc : c.IsInfinity) (hd : d.IsFinite)
    (h : adjusted? row column c d = some w) : w.IsInfinity := by
  cases row with
  | false =>
    cases column with
    | false => exact isInfinity_of_sub? hc hd h
    | true =>
      cases h
      exact hc
  | true =>
    obtain ⟨s, hs, hw⟩ := Option.bind_eq_some_iff.1 h
    have hs' := isInfinity_of_add? hc hd hs
    cases column with
    | false => exact isInfinity_of_sub? hs' hd hw
    | true =>
      cases hw
      exact hs'

/-- **What an adjustment makes of a cell.** -/
theorem adjusted_of_adjusted? (hc : c.IsAmount) (hd : d.IsFinite) (hd₀ : 0 ≤ d.num)
    (least : row = false → column = false → c.IsFinite → d.num ≤ c.num)
    (h : adjusted? row column c d = some w) : Adjusted row column c d w := by
  have hpos := roundoff_pos
  rcases hc with ⟨hc, hc₀⟩ | hc
  · cases row with
    | false =>
      cases column with
      | false =>
        have lowered := lowered_of_sub? hc hd hd₀ (least rfl rfl hc) h
        refine ⟨.inl ⟨lowered.finite, lowered.nonneg⟩, fun hne => absurd rfl hne,
          fun _ _ _ => lowered, fun _ hsafe _ => ⟨lowered.finite, ?_⟩⟩
        linarith [lowered.near hsafe]
      | true =>
        cases h
        exact ⟨.inl ⟨hc, hc₀⟩, fun _ => id, nofun, fun _ _ _ => ⟨hc, by linarith⟩⟩
    | true =>
      obtain ⟨s, hs, hw⟩ := Option.bind_eq_some_iff.1 h
      cases column with
      | false =>
        obtain ⟨amount, zero, near⟩ := isAmount_of_add?_sub? hc hd hc₀ hd₀ hs hw
        refine ⟨amount, fun _ hzero => ?_, nofun, fun _ hc₁ hd₁ => ?_⟩
        · exact (isZero_iff_of_amount amount).2 (zero ((isZero_iff hc).1 hzero))
        · obtain ⟨finite, hle⟩ := near hc₁ hd₁
          exact ⟨finite, by linarith⟩
      | true =>
        cases hw
        obtain ⟨amount, near⟩ := isAmount_of_add? hc hd hc₀ hd₀ hs
        exact ⟨amount, fun hne => absurd rfl hne, nofun, fun _ => near⟩
  · -- What is infinite stays so, and is never the zero or the finite excess that is asked for.
    have infinite := not_finite_of_infinity hc
    exact ⟨.inr (isInfinity_of_adjusted? hc hd h),
      fun _ hzero => absurd ((isZero_iff_of_amount (.inr hc)).1 hzero).1 infinite,
      fun _ _ finite => absurd finite infinite, fun finite => absurd finite infinite⟩

end Weight

namespace Costs

variable {c e e' : Costs n} {i j : Fin n} {P : Weight → Prop}

/-! ## The first choice of potentials -/

/-- The costs are finite and not negative. -/
structure Finite (c : Costs n) : Prop where
  finite : ∀ i j, (c.cell i j).IsFinite
  nonneg : ∀ i j, 0 ≤ (c.cell i j).num

/-- Costs with a property have differences, and these have the property too. -/
def Closed (P : Weight → Prop) : Prop :=
  ∀ {a b}, P a → P b → a.IsFinite → b.IsFinite → 0 ≤ b.num → b.num ≤ a.num →
    ∃ w, a.sub? b = some w ∧ P w

theorem exists_least (f : Fin n → Weight) (finite : ∀ j, (f j).IsFinite) (i : Fin n) :
    ∃ w, least? ((List.finRange n).map f) = some w ∧ (∃ j, f j = w) ∧ ∀ j, w.num ≤ (f j).num := by
  have hmem : ∀ j, f j ∈ (List.finRange n).map f := fun j =>
    List.mem_map.2 ⟨j, List.mem_finRange j, rfl⟩
  have finite' : ∀ w ∈ (List.finRange n).map f, w.IsFinite := by
    intro w hw
    obtain ⟨j, -, rfl⟩ := List.mem_map.1 hw
    exact finite j
  obtain ⟨w, hw, hmem', hle⟩ := least?_spec num (List.ne_nil_of_mem (hmem i))
    fun a ha b hb => lt_iff (finite' a ha) (finite' b hb)
  obtain ⟨j, -, hj⟩ := List.mem_map.1 hmem'
  exact ⟨w, hw, ⟨j, hj⟩, fun j => hle _ (hmem j)⟩

theorem Finite.exists_least_row (h : c.Finite) (i : Fin n) :
    ∃ j, least? (c.row i) = some (c.cell i j) ∧ ∀ j', (c.cell i j).num ≤ (c.cell i j').num := by
  obtain ⟨w, hw, ⟨j, rfl⟩, hle⟩ := exists_least (fun j => c.cell i j) (h.finite i) i
  exact ⟨j, hw, hle⟩

theorem Finite.exists_least_column (h : c.Finite) (j : Fin n) :
    ∃ i, least? (c.column j) = some (c.cell i j) ∧ ∀ i', (c.cell i j).num ≤ (c.cell i' j).num := by
  obtain ⟨w, hw, ⟨i, rfl⟩, hle⟩ :=
    exists_least (fun i => c.cell i j) (fun i => h.finite i j) j
  exact ⟨i, hw, hle⟩

/-- One of the costs of a line less the least of them. -/
theorem Finite.lowered (h : c.Finite) {i' j' : Fin n} {w : Weight}
    (hle : (c.cell i' j').num ≤ (c.cell i j).num)
    (hw : (c.cell i j).sub? (c.cell i' j') = some w) : Lowered (c.cell i j) (c.cell i' j') w :=
  lowered_of_sub? (h.finite i j) (h.finite i' j') (h.nonneg i' j') hle hw

theorem reduceRows?_spec (h : c.Finite) (he : c.reduceRows? = some e) :
    e.Finite ∧ ∀ i, ∃ j, (e.cell i j).num = 0 := by
  choose u hu hle using h.exists_least_row
  have lowered : ∀ i j, Lowered (c.cell i j) (c.cell i (u i)) (e.cell i j) := fun i j => by
    have hij := Grid.tabulateM_eq_some_iff.1 he i j
    rw [hu i] at hij
    exact h.lowered (hle i j) hij
  exact ⟨⟨fun i j => (lowered i j).finite, fun i j => (lowered i j).nonneg⟩,
    fun i => ⟨u i, (lowered i (u i)).zero rfl⟩⟩

theorem exists_reduceRows? (h : c.Finite) (hP : ∀ i j, P (c.cell i j)) (closed : Closed P) :
    ∃ e, c.reduceRows? = some e ∧ ∀ i j, P (e.cell i j) := by
  choose u hu hle using h.exists_least_row
  choose f hf hP' using fun i j => closed (hP i j) (hP i (u i)) (h.finite i j) (h.finite i (u i))
    (h.nonneg i (u i)) (hle i j)
  refine ⟨Grid.ofFn f, Grid.tabulateM_eq_some_iff.2 fun i j => ?_, fun i j => ?_⟩
  · rw [hu i, Grid.cell_ofFn]
    exact hf i j
  · rw [Grid.cell_ofFn]
    exact hP' i j

theorem reduceColumns?_spec (h : c.Finite) (row : ∀ i, ∃ j, (c.cell i j).num = 0)
    (he : c.reduceColumns? = some e) : e.Finite ∧ ∀ i, ∃ j, (e.cell i j).num = 0 := by
  choose v hv hle using h.exists_least_column
  have hcell : ∀ i j, e.cell i j = c.cell i j ∨
      Lowered (c.cell i j) (c.cell (v j) j) (e.cell i j) := by
    intro i j
    have hij := Grid.tabulateM_eq_some_iff.1 he i j
    rw [hv j] at hij
    dsimp only [Option.bind_some, bind, pure] at hij
    split_ifs at hij
    · exact .inl (Option.some.inj hij).symm
    · exact .inr (h.lowered (hle j i) hij)
  refine ⟨⟨fun i j => ?_, fun i j => ?_⟩, fun i => ?_⟩
  · rcases hcell i j with hsame | lowered
    · rw [hsame]
      exact h.finite i j
    · exact lowered.finite
  · rcases hcell i j with hsame | lowered
    · rw [hsame]
      exact h.nonneg i j
    · exact lowered.nonneg
  · obtain ⟨j, hj⟩ := row i
    refine ⟨j, ?_⟩
    rcases hcell i j with hsame | lowered
    · rw [hsame, hj]
    · -- The least excess of a column with a zero is zero.
      refine lowered.zero (hj.trans (le_antisymm (h.nonneg (v j) j) ?_))
      rw [← hj]
      exact hle j i

theorem exists_reduceColumns? (h : c.Finite) (hP : ∀ i j, P (c.cell i j)) (closed : Closed P) :
    ∃ e, c.reduceColumns? = some e ∧ ∀ i j, P (e.cell i j) := by
  choose v hv hle using h.exists_least_column
  have hcell : ∀ i j, ∃ w, (if (c.cell (v j) j).isZero then some (c.cell i j)
      else (c.cell i j).sub? (c.cell (v j) j)) = some w ∧ P w := by
    intro i j
    split_ifs
    · exact ⟨_, rfl, hP i j⟩
    · exact closed (hP i j) (hP (v j) j) (h.finite i j) (h.finite (v j) j) (h.nonneg (v j) j)
        (hle j i)
  choose f hf hP' using hcell
  refine ⟨Grid.ofFn f, Grid.tabulateM_eq_some_iff.2 fun i j => ?_, fun i j => ?_⟩
  · rw [hv j, Grid.cell_ofFn]
    exact hf i j
  · rw [Grid.cell_ofFn]
    exact hP' i j

theorem Finite.tight_iff (h : c.Finite) : c.tight i j = true ↔ (c.cell i j).num = 0 :=
  isZero_iff (h.finite i j)

/-- **The first choice of potentials** leaves a finite excess with a zero in each row. -/
theorem excess?_spec (h : c.Finite) (he : c.excess? = some e) :
    e.Finite ∧ ∀ i, ∃ j, e.tight i j = true := by
  obtain ⟨e₁, h₁, h₂⟩ := Option.bind_eq_some_iff.1 he
  obtain ⟨finite₁, row₁⟩ := reduceRows?_spec h h₁
  obtain ⟨finite₂, row₂⟩ := reduceColumns?_spec finite₁ row₁ h₂
  refine ⟨finite₂, fun i => ?_⟩
  obtain ⟨j, hj⟩ := row₂ i
  exact ⟨j, finite₂.tight_iff.2 hj⟩

/-- The first choice of potentials is made among weights whose differences are such weights. -/
theorem exists_excess? (h : c.Finite) (hP : ∀ i j, P (c.cell i j)) (closed : Closed P) :
    ∃ e, c.excess? = some e ∧ ∀ i j, P (e.cell i j) := by
  obtain ⟨e₁, h₁, hP₁⟩ := exists_reduceRows? h hP closed
  obtain ⟨e₂, h₂, hP₂⟩ := exists_reduceColumns? (reduceRows?_spec h h₁).1 hP₁ closed
  exact ⟨e₂, Option.bind_eq_some_iff.2 ⟨e₁, h₁, h₂⟩, hP₂⟩

end Costs

/-! ## One adjustment -/

section Lines

variable {tight : Tight n} {p : Pairing n} {i j : Fin n}

theorem rows_eq_false : (Reach.all tight p).cover.rows.get i = false ↔ ReachedRow tight p i := by
  rw [← Bool.not_eq_true, Reach.cover_rows, not_not]

theorem columns_eq_false :
    (Reach.all tight p).cover.columns.get j = false ↔ ¬ ReachedColumn tight p j := by
  rw [← Bool.not_eq_true, Reach.cover_columns]

end Lines

variable {e e' : Costs n} {p q : Pairing n} {d : Weight} {b : Entered n} {i j : Fin n}

/-- What holds of the excess in each round. -/
structure Costs.Sound (e : Costs n) (p : Pairing n) : Prop where
  amount : ∀ i j, (e.cell i j).IsAmount
  finite : ∀ {i j}, p.columnOf.get i = none → p.rowOf.get j = none → (e.cell i j).IsFinite

/-- The least uncovered excess. -/
structure Costs.Slack (e : Costs n) (p : Pairing n) (d : Weight) : Prop where
  slack_eq : e.slack? (Reach.all e.tight p).cover = some d
  finite : d.IsFinite
  nonneg : 0 ≤ d.num
  attained : ∃ i j, ReachedRow e.tight p i ∧ ¬ ReachedColumn e.tight p j ∧ e.cell i j = d
  least : ∀ {i j}, ReachedRow e.tight p i → ¬ ReachedColumn e.tight p j →
    (e.cell i j).IsFinite → d.num ≤ (e.cell i j).num

namespace Costs

theorem Finite.sound (h : e.Finite) : e.Sound p :=
  ⟨fun i j => .inl ⟨h.finite i j, h.nonneg i j⟩, fun {i j} _ _ => h.finite i j⟩

namespace Sound

theorem extend (sound : e.Sound p) (extends' : p.Extends q) : e.Sound q where
  amount := sound.amount
  finite hi hj := sound.finite (extends'.columnOf_eq_none hi) (extends'.rowOf_eq_none hj)

/-- **The least uncovered excess** is finite as long as the pairing is not perfect. -/
theorem exists_slack (sound : e.Sound p) (valid : p.Valid e.tight) (barrier : p.Barrier e.tight b)
    (less : p.size < n) : ∃ d, e.Slack p d := by
  obtain ⟨i₀, hi₀⟩ := Pairing.size_lt_iff.1 less
  obtain ⟨j₀, hj₀⟩ := valid.exists_exposed_column less
  have hmem : ∀ {i j}, ReachedRow e.tight p i → ¬ ReachedColumn e.tight p j →
      e.cell i j ∈ (uncovered (Reach.all e.tight p).cover).map fun x => e.cell x.1 x.2 :=
    fun {i j} hi hj => List.mem_map.2 ⟨(i, j), mem_uncovered.2 (misses_iff.2 ⟨hi, hj⟩), rfl⟩
  have hamount : ∀ w ∈ (uncovered (Reach.all e.tight p).cover).map fun x => e.cell x.1 x.2,
      w.IsAmount := by
    intro w hw
    obtain ⟨x, -, rfl⟩ := List.mem_map.1 hw
    exact sound.amount x.1 x.2
  have hmem₀ := hmem (.exposed hi₀) (barrier.not_reached_of_exposed valid hj₀)
  obtain ⟨d, hd, hmem', hle⟩ := least?_spec Weight.amount (List.ne_nil_of_mem hmem₀)
    fun a ha b hb => lt_iff_amount (hamount a ha) (hamount b hb)
  -- It is not more than the excess of an exposed row and an exposed column.
  have finite : d.IsFinite := by
    refine (hamount d hmem').elim And.left fun infinite => absurd (hle _ hmem₀) ?_
    rw [amount_of_infinity infinite, amount_of_finite (sound.finite hi₀ hj₀)]
    exact not_le.2 (WithTop.coe_lt_top _)
  refine ⟨d, hd, finite, (hamount d hmem').nonneg finite, ?_, fun {i j} hi hj hij => ?_⟩
  · obtain ⟨⟨i, j⟩, huncovered, hcell⟩ := List.mem_map.1 hmem'
    obtain ⟨hi, hj⟩ := misses_iff.1 (mem_uncovered.1 huncovered)
    exact ⟨i, j, hi, hj, hcell⟩
  · have := hle _ (hmem hi hj)
    rw [amount_of_finite finite, amount_of_finite hij] at this
    exact WithTop.coe_le_coe.1 this

end Sound

theorem adjust?_eq_some_iff {cover : Cover n} : e.adjust? cover d = some e' ↔
    ∀ i j, adjusted? (cover.rows.get i) (cover.columns.get j) (e.cell i j) d =
      some (e'.cell i j) :=
  Grid.tabulateM_eq_some_iff

namespace Slack

variable (slack : e.Slack p d) (sound : e.Sound p)
  (hadjust : e.adjust? (Reach.all e.tight p).cover d = some e')
include slack sound hadjust

theorem adjusted (i j : Fin n) : Adjusted ((Reach.all e.tight p).cover.rows.get i)
    ((Reach.all e.tight p).cover.columns.get j) (e.cell i j) d (e'.cell i j) :=
  adjusted_of_adjusted? (sound.amount i j) slack.finite slack.nonneg
    (fun hi hj => slack.least (rows_eq_false.1 hi) (columns_eq_false.1 hj))
    (adjust?_eq_some_iff.1 hadjust i j)

theorem lowered (hi : ReachedRow e.tight p i) (hj : ¬ ReachedColumn e.tight p j)
    (finite : (e.cell i j).IsFinite) : Lowered (e.cell i j) d (e'.cell i j) :=
  (slack.adjusted sound hadjust i j).lowered (rows_eq_false.2 hi) (columns_eq_false.2 hj) finite

theorem tightening : Tightening e.tight e'.tight p where
  kept := by
    intro i j hij
    refine (slack.adjusted sound hadjust i j).kept fun heq => ?_
    have hrow := @rows_eq_false _ e.tight p i
    rw [heq, columns_eq_false, hij] at hrow
    exact iff_not_self hrow.symm
  gained := by
    obtain ⟨i, j, hi, hj, hd⟩ := slack.attained
    have h := slack.lowered sound hadjust hi hj (hd ▸ slack.finite)
    exact ⟨i, j, hi, hj, (isZero_iff h.finite).2 (h.zero (congrArg num hd))⟩

/-- **After an adjustment** the excess is still made of amounts, and still finite where an exposed
row meets an exposed column. -/
theorem sound_adjusted (valid : p.Valid e.tight) (barrier : p.Barrier e.tight b) : e'.Sound p where
  amount i j := (slack.adjusted sound hadjust i j).amount
  finite := by
    intro i j hi hj
    exact (slack.lowered sound hadjust (.exposed hi) (barrier.not_reached_of_exposed valid hj)
      (sound.finite hi hj)).finite

end Slack

end Costs

end OptimalMatching
