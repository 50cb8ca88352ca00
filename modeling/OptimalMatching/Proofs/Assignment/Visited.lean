import OptimalMatching.Proofs.Assignment.Amounts
import OptimalMatching.Proofs.Assignment.Run
/-!
# The states of a run

The state of a run is its excess and a maximum pairing of the tight cells. A run starts from the
first excess, and each adjustment takes it from a state to the next (`Run.Visits`).

**In every state** the excess is made of amounts and the pairing is as large as it can be
(`Maximized`). So there is always a least uncovered excess, and each adjustment leaves fewer that
may come. The run ends with an assignment, or in a state that it cannot go on from because an
integer is too large to be combined with a float (`Run.ofExcess_spec`). That it does not end in that
way for some kind of costs is shown by what all states have in common.
-/

namespace OptimalMatching.Assignment

variable {n : Nat} {e₀ e e' : Costs n} {p : Pairing n} {d : Weight} {k fuel : Nat}

/-- The states that a run comes to, with the number of adjustments made so far. -/
inductive Run.Visits (e₀ : Costs n) : Nat → Costs n → Pairing n → Prop
  | start : Visits e₀ 0 e₀ (Pairing.empty.maximize e₀.tight)
  | round {k : Nat} {e e' : Costs n} {p : Pairing n} {d : Weight} (before : Visits e₀ k e p)
      (incomplete : p.assignment? = none) (slack : e.Slack p d)
      (hadjust : e.adjust? (Reach.all e.tight p).cover d = some e') :
      Visits e₀ (k + 1) e' (p.maximize e'.tight)

/-! ## One state -/

/-- A maximum pairing of the tight cells has been found. -/
structure Maximized (e : Costs n) (p : Pairing n) : Prop where
  sound : e.Sound p
  valid : p.Valid e.tight
  row_tight : ∀ i, ∃ j, e.tight i j = true
  barrier : p.size < n → ∃ b : Entered n, p.Barrier e.tight b

theorem maximized_maximize (sound : e.Sound p) (valid : p.Valid e.tight)
    (row_tight : ∀ i, ∃ j, e.tight i j = true) : Maximized e (p.maximize e.tight) := by
  obtain ⟨valid', extends', hend⟩ := Pairing.maximize_spec valid
  exact ⟨sound.extend extends', valid', row_tight, fun less => hend.resolve_left less.ne⟩

namespace Maximized

variable (maximized : Maximized e p) (incomplete : p.assignment? = none)
include maximized incomplete

theorem cover?_eq : p.cover? e.tight = some (Reach.all e.tight p).cover := by
  obtain ⟨b, barrier⟩ := maximized.barrier (size_lt_of_assignment? incomplete)
  exact barrier.cover?_eq maximized.valid

theorem exists_slack : ∃ d, e.Slack p d := by
  have less := size_lt_of_assignment? incomplete
  obtain ⟨b, barrier⟩ := maximized.barrier less
  exact maximized.sound.exists_slack maximized.valid barrier less

/-- **An adjustment** leads to a state with fewer rounds left. -/
theorem round (slack : e.Slack p d)
    (hadjust : e.adjust? (Reach.all e.tight p).cover d = some e') :
    Maximized e' (p.maximize e'.tight) ∧
      remaining e'.tight (p.maximize e'.tight) < remaining e.tight p := by
  have less := size_lt_of_assignment? incomplete
  obtain ⟨b, barrier⟩ := maximized.barrier less
  have sound := maximized.sound
  have valid := maximized.valid
  have tightening := slack.tightening sound hadjust
  have row_tight := tightening.row_tight valid maximized.row_tight
  have valid' := tightening.valid valid
  obtain ⟨-, extends', -⟩ := Pairing.maximize_spec valid'
  exact ⟨maximized_maximize (slack.sound_adjusted sound hadjust valid barrier) valid' row_tight,
    remaining_lt valid barrier less tightening row_tight extends'⟩

end Maximized

/-! ## All states -/

namespace Run

/-- **Every state** of a run has a maximum pairing, and only so many rounds lead to it. -/
theorem Visits.maximized (visits : Visits e₀ k e p)
    (start : Maximized e₀ (Pairing.empty.maximize e₀.tight)) : Maximized e p ∧
      k + remaining e.tight p ≤ remaining e₀.tight (Pairing.empty.maximize e₀.tight) := by
  induction visits with
  | start => exact ⟨start, (Nat.zero_add _).le⟩
  | round _ incomplete slack hadjust ih =>
    obtain ⟨maximized, hle⟩ := ih
    obtain ⟨maximized', hlt⟩ := maximized.round incomplete slack hadjust
    exact ⟨maximized', by omega⟩

/-- A state that a run cannot go on from. -/
structure Stuck (e : Costs n) (p : Pairing n) (d : Weight) : Prop where
  incomplete : p.assignment? = none
  slack : e.Slack p d
  adjust?_eq : e.adjust? (Reach.all e.tight p).cover d = none

/-- **A run** with enough rounds ends with an assignment, or it is stuck. -/
theorem go_visits (visits : Visits e₀ k e (p.maximize e.tight))
    (maximized : Maximized e (p.maximize e.tight))
    (enough : remaining e.tight (p.maximize e.tight) < fuel) :
    ∃ k' e' q, Visits e₀ k' e' q ∧
      ((∃ columns, q.assignment? = some columns ∧ (go fuel e p).ending = .assigned q columns) ∨
        ∃ d, Stuck e' q d ∧ (go fuel e p).ending = .tooLarge q (Reach.all e'.tight q).cover d) := by
  -- Over the rounds that may still be made: what is left of the work gets less with each of them.
  induction fuel generalizing k e p with
  | zero => omega
  | succ fuel ih =>
    cases hassigned : (p.maximize e.tight).assignment? with
    | some columns =>
      rw [go_assigned hassigned]
      exact ⟨k, e, _, visits, .inl ⟨columns, hassigned, rfl⟩⟩
    | none =>
      obtain ⟨d, slack⟩ := maximized.exists_slack hassigned
      have hcover := maximized.cover?_eq hassigned
      cases hadjust : e.adjust? (Reach.all e.tight (p.maximize e.tight)).cover d with
      | none =>
        rw [go_tooLarge hassigned hcover slack.slack_eq hadjust]
        exact ⟨k, e, _, visits, .inr ⟨d, ⟨hassigned, slack, hadjust⟩, rfl⟩⟩
      | some e' =>
        obtain ⟨maximized', hlt⟩ := maximized.round hassigned slack hadjust
        rw [go_round hassigned hcover slack.slack_eq hadjust]
        exact ih (.round visits hassigned slack hadjust) maximized' (by omega)

theorem maximized_start (finite : e₀.Finite) (row_tight : ∀ i, ∃ j, e₀.tight i j = true) :
    Maximized e₀ (Pairing.empty.maximize e₀.tight) :=
  maximized_maximize finite.sound (Pairing.valid_empty _) row_tight

/-- **The run from a finite excess** assigns the columns to the rows, or it is stuck in a state to
which at most `n * n` adjustments have led. -/
theorem ofExcess_spec (finite : e₀.Finite) (row_tight : ∀ i, ∃ j, e₀.tight i j = true) :
    (∃ columns, (ofExcess e₀).assignment = .ok columns ∧ Function.Bijective columns.get) ∨
      (ofExcess e₀).assignment = .error .weightTooLarge ∧
        ∃ k e p d, k ≤ n * n ∧ Visits e₀ k e p ∧ Stuck e p d := by
  have start := maximized_start finite row_tight
  have hle := (remaining_le (p := Pairing.empty.maximize e₀.tight) row_tight).trans (triangle_le n)
  obtain ⟨k, e, q, visits, hend⟩ := go_visits .start start (Nat.lt_succ_of_le hle)
  obtain ⟨maximized, hk⟩ := visits.maximized start
  rcases hend with ⟨columns, hq, hending⟩ | ⟨d, stuck, hending⟩
  · refine .inl ⟨columns, ?_, bijective_of_assignment? maximized.valid hq⟩
    rw [assignment, ofExcess, hending]
  · refine .inr ⟨?_, k, e, q, d, by omega, visits, stuck⟩
    rw [assignment, ofExcess, hending]

end Run

/-- Where it comes up that integers among the costs are too large to be combined with floats. -/
inductive TooLarge (c : Costs n) : Prop
  /-- At the first choice of potentials. -/
  | potentials (h : c.excess? = none)
  /-- At an adjustment. -/
  | adjustment {e₀ e : Costs n} {p : Pairing n} {d : Weight} {k : Nat} (h : c.excess? = some e₀)
      (few : k ≤ n * n) (visits : Run.Visits e₀ k e p) (stuck : Run.Stuck e p d)
  /-- When the chosen costs are added up. -/
  | total (columns : Fin n → Fin n)
      (h : Weight.sum? ((List.finRange n).map fun i => c.cell i (columns i)) = none)

end OptimalMatching.Assignment
