import OptimalMatching.Proofs.Assignment.Visited
/-!
# Costs for which all adjustments are made

An adjustment is not made when an integer is too large to be combined with a float. That does not
happen when all costs are floats, since what they are combined to is a float again
(`Assignment.not_tooLarge_of_floats`). Nor does it happen when no cost is very large
(`Assignment.not_tooLarge_of_moderate`).

**Bounds.** The first excess is at most the largest cost. An adjustment lowers the excess of a cell
in an exposed row and an exposed column, and such a cell has been lowered by each adjustment so far.
Since it is not negative, all adjustments together come to the largest cost at most, up to rounding.
No other cell is raised by more than that (`Bounded`). So the excess stays where weights are
combined without trouble, and the adjustment of a round is made (`Bounded.exists_adjust?`).
-/

namespace OptimalMatching

open Weight

variable {n : Nat} {c e e₀ e' : Costs n} {p : Pairing n} {d : Weight} {k : Nat} {s : ℚ}

namespace Costs

theorem exists_adjust? {cover : Cover n}
    (h : ∀ i j, ∃ w, adjusted? (cover.rows.get i) (cover.columns.get j) (e.cell i j) d = some w) :
    ∃ e', e.adjust? cover d = some e' := by
  choose f hf using h
  refine ⟨Grid.ofFn f, adjust?_eq_some_iff.2 fun i j => ?_⟩
  rw [Grid.cell_ofFn]
  exact hf i j

/-! ## Floats -/

def Floats (e : Costs n) : Prop := ∀ i j, (e.cell i j).IsFloat

theorem exists_adjusted?_float (row column : Bool) (x y : Float) :
    ∃ z, adjusted? row column (.float x) (.float y) = some (.float z) := by
  cases row <;> cases column <;> exact ⟨_, rfl⟩

theorem Floats.exists_adjust? (floats : e.Floats) {cover : Cover n} (hd : d.IsFloat) :
    ∃ e', e.adjust? cover d = some e' := by
  obtain ⟨y, rfl⟩ := hd
  refine Costs.exists_adjust? fun i j => ?_
  obtain ⟨x, hx⟩ := floats i j
  obtain ⟨z, hz⟩ := exists_adjusted?_float (cover.rows.get i) (cover.columns.get j) x y
  exact ⟨_, hx ▸ hz⟩

theorem Floats.adjust? (floats : e.Floats) {cover : Cover n} (hd : d.IsFloat)
    (hadjust : e.adjust? cover d = some e') : e'.Floats := by
  obtain ⟨y, rfl⟩ := hd
  intro i j
  obtain ⟨x, hx⟩ := floats i j
  obtain ⟨z, hz⟩ := exists_adjusted?_float (cover.rows.get i) (cover.columns.get j) x y
  have hij := adjust?_eq_some_iff.1 hadjust i j
  rw [hx, hz] at hij
  exact ⟨z, (Option.some.inj hij).symm⟩

theorem Floats.slack (floats : e.Floats) (slack : e.Slack p d) : d.IsFloat := by
  obtain ⟨i, j, -, -, rfl⟩ := slack.attained
  exact floats i j

theorem closed_float : Closed IsFloat := by
  rintro _ _ ⟨x, rfl⟩ ⟨y, rfl⟩ - - - -
  exact ⟨.float (x - y), rfl, x - y, rfl⟩

end Costs

open Assignment (Maximized)
open Assignment.Run (Visits)

theorem Assignment.Run.Visits.floats (visits : Visits e₀ k e p) (floats : e₀.Floats) :
    e.Floats := by
  induction visits with
  | start => exact floats
  | round _ _ slack hadjust ih => exact ih.adjust? (ih.slack slack) hadjust

/-! ## Moderate costs -/

/-- The adjustment of a cell is made among weights that are not too large. -/
theorem Weight.exists_adjusted? {c : Weight} (hc : c.IsFinite) (hd : d.IsFinite)
    (hc₁ : |c.num| ≤ largest) (hd₁ : |d.num| ≤ largest) (row column : Bool) :
    ∃ w, adjusted? row column c d = some w := by
  cases row with
  | false =>
    cases column with
    | false => exact exists_sub? hc hd hc₁ hd₁
    | true => exact ⟨c, rfl⟩
  | true =>
    cases column with
    | false =>
      obtain ⟨s, w, hs, hw⟩ := exists_add?_sub? hc hd hc₁ hd₁
      exact ⟨w, Option.bind_eq_some_iff.2 ⟨s, hs, hw⟩⟩
    | true =>
      obtain ⟨w, hw⟩ := exists_add? hc hd hc₁ hd₁
      exact ⟨w, Option.bind_eq_some_iff.2 ⟨w, hw, rfl⟩⟩

/-- What holds after `k` adjustments by `s` altogether. Cells that lie in an exposed row and an
exposed column have been lowered by each of them. -/
structure Bounded (e : Costs n) (p : Pairing n) (k : Nat) (s : ℚ) : Prop where
  finite : ∀ i j, (e.cell i j).IsFinite
  le : ∀ i j, (e.cell i j).num ≤ moderate + s + k * roundoff
  exposed_le : ∀ {i j}, p.columnOf.get i = none → p.rowOf.get j = none →
    (e.cell i j).num ≤ moderate - s + k * roundoff

namespace Bounded

theorem mul_roundoff_le (few : k ≤ 2 ^ 41) : k * roundoff ≤ moderate / 4 := by
  have hcast : (k : ℚ) ≤ 2 ^ (41 : ℤ) := by exact_mod_cast few
  calc (k : ℚ) * roundoff ≤ 2 ^ (41 : ℤ) * 2 ^ (952 : ℤ) :=
        mul_le_mul_of_nonneg_right hcast roundoff_pos.le
    _ = 2 ^ (993 : ℤ) := by
        rw [← two_zpow_add]
        rfl
    _ ≤ 2 ^ (998 : ℤ) := two_zpow_mono (by norm_num)
    _ = moderate / 4 := by
        rw [moderate, show (1000 : ℤ) = 2 + 998 from rfl, two_zpow_add]
        norm_num

theorem of_finite (finite : e.Finite) (le : ∀ i j, (e.cell i j).num ≤ moderate) :
    Bounded e p 0 0 := by
  refine ⟨finite.finite, fun i j => ?_, fun {i j} _ _ => ?_⟩
  · simpa using le i j
  · simpa using le i j

theorem extend {q : Pairing n} (bounded : Bounded e p k s) (extends' : p.Extends q) :
    Bounded e q k s where
  finite := bounded.finite
  le := bounded.le
  exposed_le hi hj := bounded.exposed_le (extends'.columnOf_eq_none hi) (extends'.rowOf_eq_none hj)

variable (bounded : Bounded e p k s) (maximized : Maximized e p)
  (incomplete : p.assignment? = none) (few : k ≤ 2 ^ 41)
include bounded maximized incomplete few

/-- As long as an exposed row and an exposed column are left, no excess is large. -/
theorem le_safe (i j : Fin n) : (e.cell i j).num ≤ safe := by
  have less := Assignment.size_lt_of_assignment? incomplete
  obtain ⟨i₀, hi₀⟩ := Pairing.size_lt_iff.1 less
  obtain ⟨j₀, hj₀⟩ := maximized.valid.exists_exposed_column less
  have nonneg := (maximized.sound.amount i₀ j₀).nonneg (bounded.finite i₀ j₀)
  have htotal := nonneg.trans (bounded.exposed_le hi₀ hj₀)
  have hle := bounded.le i j
  have hround := mul_roundoff_le few
  have hfour := four_moderate
  have hmoderate := moderate_nonneg
  linarith

theorem abs_le_largest (i j : Fin n) : |(e.cell i j).num| ≤ largest := by
  have hsafe := safe_pos
  have hle := bounded.le_safe maximized incomplete few i j
  exact abs_le_of_safe ((maximized.sound.amount i j).nonneg (bounded.finite i j)) (by linarith)

/-- **The adjustment of a round** is made. -/
theorem exists_adjust? (slack : e.Slack p d) :
    ∃ e', e.adjust? (Reach.all e.tight p).cover d = some e' := by
  obtain ⟨i₁, j₁, -, -, rfl⟩ := slack.attained
  have small := bounded.abs_le_largest maximized incomplete few
  exact Costs.exists_adjust? fun i j =>
    exists_adjusted? (bounded.finite i j) slack.finite (small i j) (small i₁ j₁) _ _

theorem adjust? (slack : e.Slack p d)
    (hadjust : e.adjust? (Reach.all e.tight p).cover d = some e') :
    Bounded e' p (k + 1) (s + d.num) := by
  obtain ⟨b, barrier⟩ := maximized.barrier (Assignment.size_lt_of_assignment? incomplete)
  have hle := bounded.le_safe maximized incomplete few
  have hd : d.num ≤ safe := by
    obtain ⟨i, j, -, -, rfl⟩ := slack.attained
    exact hle i j
  have near := fun i j =>
    (slack.adjusted maximized.sound hadjust i j).near (bounded.finite i j) (hle i j) hd
  have hsucc : ((k + 1 : ℕ) : ℚ) * roundoff = k * roundoff + roundoff := by
    push_cast
    ring
  refine ⟨fun i j => (near i j).1, fun i j => ?_, fun {i j} hi hj => ?_⟩
  · rw [hsucc]
    linarith [(near i j).2, bounded.le i j]
  · have hj' := barrier.not_reached_of_exposed maximized.valid hj
    have hlow := (slack.lowered maximized.sound hadjust (.exposed hi) hj'
      (bounded.finite i j)).near (hle i j)
    rw [hsucc]
    linarith [bounded.exposed_le hi hj]

end Bounded

namespace Assignment

theorem Run.Visits.bounded (visits : Visits e₀ k e p)
    (start : Maximized e₀ (Pairing.empty.maximize e₀.tight)) (finite : e₀.Finite)
    (le : ∀ i j, (e₀.cell i j).num ≤ moderate) (few : k ≤ 2 ^ 41) : ∃ s, Bounded e p k s := by
  induction visits with
  | start => exact ⟨0, .of_finite finite le⟩
  | round before incomplete slack hadjust ih =>
    obtain ⟨s, bounded⟩ := ih (by omega)
    have maximized := (before.maximized start).1
    have bounded' := bounded.adjust? maximized incomplete (by omega) slack hadjust
    have valid' := (slack.tightening maximized.sound hadjust).valid maximized.valid
    obtain ⟨-, extends', -⟩ := Pairing.maximize_spec valid'
    exact ⟨_, bounded'.extend extends'⟩

/-! ## Costs that are not too large -/

/-- **Floats** are never too large for one another. -/
theorem not_tooLarge_of_floats (finite : c.Finite) (floats : c.Floats) : ¬ TooLarge c := by
  obtain ⟨e₀, he₀, floats₀⟩ := Costs.exists_excess? finite floats Costs.closed_float
  intro tooLarge
  cases tooLarge with
  | potentials h => cases he₀.symm.trans h
  | adjustment h few visits stuck =>
    cases he₀.symm.trans h
    have floats' := visits.floats floats₀
    obtain ⟨e', he'⟩ := floats'.exists_adjust? (floats'.slack stuck.slack)
    cases he'.symm.trans stuck.adjust?_eq
  | total columns h =>
    obtain ⟨w, hw⟩ := exists_sum?_of_floats
      (l := (List.finRange n).map fun i => c.cell i (columns i)) fun w hw => by
        obtain ⟨i, -, rfl⟩ := List.mem_map.1 hw
        exact floats i _
    cases hw.symm.trans h

theorem closed_moderate : Costs.Closed fun w => w.num ≤ moderate := by
  intro a b ha hb finite finite' nonneg hle
  have hsafe := moderate_le_safe
  have hsafe₀ := safe_pos
  obtain ⟨w, hw⟩ := exists_sub? finite finite'
    (abs_le_of_safe (nonneg.trans hle) (by linarith)) (abs_le_of_safe nonneg (by linarith))
  exact ⟨w, hw, (lowered_of_sub? finite finite' nonneg hle hw).le_moderate ha⟩

/-- **Moderate costs** are not too large, if there are not too many of them. -/
theorem not_tooLarge_of_moderate (finite : c.Finite) (le : ∀ i j, (c.cell i j).num ≤ moderate)
    (few : n ≤ 2 ^ 20) : ¬ TooLarge c := by
  obtain ⟨e₀, he₀, le₀⟩ := Costs.exists_excess? finite le closed_moderate
  obtain ⟨finite₀, row_tight⟩ := Costs.excess?_spec finite he₀
  intro tooLarge
  cases tooLarge with
  | potentials h => cases he₀.symm.trans h
  | adjustment h few' visits stuck =>
    cases he₀.symm.trans h
    -- The excess grows by at most a constant in each round, and the rounds are few.
    have start := Run.maximized_start finite₀ row_tight
    have hk := few'.trans (Nat.mul_le_mul few few)
    obtain ⟨s, bounded⟩ := visits.bounded start finite₀ le₀ (by omega)
    obtain ⟨maximized, -⟩ := visits.maximized start
    obtain ⟨e', he'⟩ :=
      bounded.exists_adjust? maximized stuck.incomplete (by omega) stuck.slack
    cases he'.symm.trans stuck.adjust?_eq
  | total columns h =>
    obtain ⟨w, hw⟩ := exists_sum?_of_moderate
      (l := (List.finRange n).map fun i => c.cell i (columns i)) (fun w hw => by
        obtain ⟨i, -, rfl⟩ := List.mem_map.1 hw
        exact ⟨finite.finite i _, finite.nonneg i _, le i _⟩)
      (by rwa [List.length_map, List.length_finRange])
    cases hw.symm.trans h

end Assignment

end OptimalMatching
