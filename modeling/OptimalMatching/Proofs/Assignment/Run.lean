import Mathlib.Algebra.BigOperators.Intervals
import OptimalMatching.Assignment.Run
import OptimalMatching.Proofs.Assignment.Excess
/-!
# The course of a run

A round that does not let the pairing grow reaches more columns (`Round.Progress`). With `s` paired
rows at least one column is reached and at most `s` are, so there are at most `s` such rounds, and
at most `0 + 1 + ⋯ + (n - 1)` altogether. `remaining` counts how many rounds are left by this bound;
each round lowers it (`remaining_lt`), and so a run comes to its end (`Run.go_ends`).
-/

namespace OptimalMatching.Assignment

variable {n : Nat}

/-- The columns of a cover. -/
def columnSet (cover : Cover n) : Finset (Fin n) :=
  Finset.univ.filter fun j => cover.columns.get j = true

/-! ## Rounds -/

/-- A round does what it is meant to do, from an excess and the pairing of the round before: the
reached lines are a minimum cover of the tight cells, some cell is not covered, and the least excess
of such a cell is positive. -/
structure Round.Follows (excess : Costs n) (p : Pairing n) (r : Round n) : Prop where
  pairing_eq : r.pairing = p.maximize excess.tight
  incomplete : r.pairing.size < n
  cover_eq : r.pairing.cover? excess.tight = some r.cover
  uncovered : Costs.uncovered r.cover ≠ []
  slack_eq : excess.slack? r.cover = some r.delta
  positive : ∃ d : Int, 0 < d ∧ r.delta = .int d
  excess_eq : excess.adjust? r.cover r.delta = some r.excess

/-- From a round to the next the pairing grows, or it stays and more columns are reached. -/
def Round.Progress (r r' : Round n) : Prop :=
  r.pairing.size < r'.pairing.size ∨
    r'.pairing = r.pairing ∧ columnSet r.cover ⊂ columnSet r'.cover

/-- Rounds that follow one another with progress, the first one from an excess and a pairing. -/
def Course : Costs n → Pairing n → List (Round n) → Prop
  | _, _, [] => True
  | excess, p, r :: rest =>
    r.Follows excess p ∧ (∀ r' ∈ rest.head?, r.Progress r') ∧ Course r.excess r.pairing rest

theorem Course.head {excess : Costs n} {p : Pairing n} {rounds : List (Round n)}
    (course : Course excess p rounds) : ∀ r ∈ rounds.head?, r.Follows excess p := by
  cases rounds with
  | nil => simp
  | cons r rest => simpa using course.1

/-! ## Counting rounds -/

/-- The sum of the numbers below `m`. -/
def triangle (m : Nat) : Nat := ∑ k ∈ Finset.range m, k

theorem triangle_succ (m : Nat) : triangle (m + 1) = triangle m + m := Finset.sum_range_succ ..

theorem triangle_mono {k m : Nat} (h : k ≤ m) : triangle k ≤ triangle m :=
  monotone_nat_of_le_succ (fun m => by rw [triangle_succ]; exact Nat.le_add_right ..) h

theorem triangle_le (m : Nat) : triangle m ≤ m * m := by
  rw [triangle, Finset.sum_range_id]
  exact (Nat.div_le_self ..).trans (Nat.mul_le_mul_left m (Nat.sub_le m 1))

/-- The number of rounds that may be left when a maximum pairing of the tight cells has been
found. -/
def remaining (tight : Tight n) (p : Pairing n) : Nat :=
  if p.size < n then
    triangle n + 1 - (triangle p.size + (columnSet (Reach.all tight p).cover).card)
  else 0

variable {tight tight' : Tight n} {p q : Pairing n} {e : Entered n}

theorem mem_columnSet {j : Fin n} :
    j ∈ columnSet (Reach.all tight p).cover ↔ ReachedColumn tight p j := by
  simp [columnSet, Reach.cover_columns]

theorem card_columnSet_le (valid : p.Valid tight) (barrier : p.Barrier tight e) :
    (columnSet (Reach.all tight p).cover).card ≤ p.size := by
  rw [Pairing.size_eq_card, valid.card_rows]
  refine Finset.card_le_card fun j hj => Pairing.mem_columns.2 ?_
  exact Option.isSome_iff_exists.2 (barrier.rowOf_of_reached valid (mem_columnSet.1 hj))

theorem card_columnSet_pos (row : ∀ i, ∃ j, tight i j = true) (less : p.size < n) :
    0 < (columnSet (Reach.all tight p).cover).card := by
  obtain ⟨i, hi⟩ := Pairing.size_lt_iff.1 less
  obtain ⟨j, hj⟩ := row i
  exact Finset.card_pos.2 ⟨j, mem_columnSet.2 ⟨i, .exposed hi, hj⟩⟩

theorem columnSet_ssubset (tightening : Tightening tight tight' p) :
    columnSet (Reach.all tight p).cover ⊂ columnSet (Reach.all tight' p).cover := by
  obtain ⟨j, hj, hj'⟩ := tightening.exists_reachedColumn
  refine (Finset.ssubset_iff_of_subset fun k hk => ?_).2
    ⟨j, mem_columnSet.2 hj', fun hmem => hj (mem_columnSet.1 hmem)⟩
  exact mem_columnSet.2 (tightening.reachedColumn_mono (mem_columnSet.1 hk))

theorem remaining_le (row : ∀ i, ∃ j, tight i j = true) : remaining tight p ≤ triangle n := by
  unfold remaining
  split_ifs with hless
  · have := card_columnSet_pos row hless
    omega
  · exact Nat.zero_le _

/-- **An adjustment and what follows** leave fewer rounds. -/
theorem remaining_lt (valid : p.Valid tight) (barrier : p.Barrier tight e) (less : p.size < n)
    (tightening : Tightening tight tight' p) (row : ∀ i, ∃ j, tight' i j = true)
    (extends' : p.Extends q) : remaining tight' q < remaining tight p := by
  have hle := card_columnSet_le valid barrier
  have hsucc := triangle_succ p.size
  have htotal : triangle (p.size + 1) ≤ triangle n := triangle_mono less
  rw [remaining, remaining, if_pos less]
  split_ifs with hless
  · rcases extends'.eq_or_lt with rfl | hlt
    · have := Finset.card_lt_card (columnSet_ssubset tightening)
      omega
    · have hmono : triangle (p.size + 1) ≤ triangle q.size := triangle_mono hlt
      have hpos := card_columnSet_pos row hless
      omega
  · omega

/-! ## Runs -/

variable {cost c c' : Fin n → Fin n → Int} {d : Int}

/-- The next round makes progress. -/
theorem progress_of_follows {r r' : Round n} (valid : p.Valid (zeros c'))
    (adjustment : Adjustment p c c' d) (hp : r.pairing = p)
    (hcover : r.cover = (Reach.all (zeros c) p).cover) (hr' : r'.Follows (Costs.ofInts c') p) :
    r.Progress r' := by
  have heq := hr'.pairing_eq
  rw [Costs.tight_eq_zeros] at heq
  obtain ⟨-, extends', -⟩ := Pairing.maximize_spec valid
  rw [← heq] at extends'
  rcases extends'.eq_or_lt with hsame | hlt
  · refine .inr ⟨hsame.trans hp.symm, ?_⟩
    obtain ⟨hcover', -⟩ := Pairing.cover_of_cover? hr'.cover_eq
    rw [Costs.tight_eq_zeros, hsame] at hcover'
    rw [hcover, hcover']
    exact columnSet_ssubset adjustment.tightening
  · exact .inl (hp ▸ hlt)

theorem size_lt_of_assignment? (h : p.assignment? = none) : p.size < n := by
  rw [Pairing.size_lt_iff]
  by_contra hall
  push Not at hall
  choose f hf using fun i => Option.ne_none_iff_exists'.1 (hall i)
  have hsome : p.assignment? = some (.ofFn f) :=
    Pairing.assignment?_eq_some_iff.2 (by simpa using hf)
  rw [h] at hsome
  cases hsome

namespace Run

variable {fuel : Nat} {excess adjusted : Costs n} {cover : Cover n} {delta : Weight}

theorem go_assigned {columns : Table (Fin n) n}
    (h : (p.maximize excess.tight).assignment? = some columns) :
    go (fuel + 1) excess p = ⟨[], .assigned (p.maximize excess.tight) columns⟩ := by
  rw [go]
  dsimp only
  rw [h]

/-- A round that is made, and the run that goes on from it. -/
theorem go_round (incomplete : (p.maximize excess.tight).assignment? = none)
    (hcover : (p.maximize excess.tight).cover? excess.tight = some cover)
    (hslack : excess.slack? cover = some delta)
    (hadjust : excess.adjust? cover delta = some adjusted) :
    go (fuel + 1) excess p =
      ⟨⟨p.maximize excess.tight, cover, delta, adjusted⟩ ::
          (go fuel adjusted (p.maximize excess.tight)).rounds,
        (go fuel adjusted (p.maximize excess.tight)).ending⟩ := by
  rw [go]
  dsimp only
  rw [incomplete]
  dsimp only
  rw [hcover]
  dsimp only
  rw [hslack]
  dsimp only
  rw [hadjust]

/-- A round that is not made, with which the run ends. -/
theorem go_tooLarge (incomplete : (p.maximize excess.tight).assignment? = none)
    (hcover : (p.maximize excess.tight).cover? excess.tight = some cover)
    (hslack : excess.slack? cover = some delta) (hadjust : excess.adjust? cover delta = none) :
    go (fuel + 1) excess p = ⟨[], .tooLarge (p.maximize excess.tight) cover delta⟩ := by
  rw [go]
  dsimp only
  rw [incomplete]
  dsimp only
  rw [hcover]
  dsimp only
  rw [hslack]
  dsimp only
  rw [hadjust]

end Run

/-- **A round is made** as long as some row has no column, and the run goes on from the adjusted
excess with fewer rounds left. -/
theorem Run.exists_round (reduced : Reduced cost c) (valid : p.Valid (zeros c))
    (incomplete : (p.maximize (zeros c)).assignment? = none) :
    ∃ r c', r.Follows (Costs.ofInts c) p ∧ r.pairing = p.maximize (zeros c) ∧
      r.excess = Costs.ofInts c' ∧ Reduced cost c' ∧ r.pairing.Valid (zeros c') ∧
        remaining (zeros c') (r.pairing.maximize (zeros c')) < remaining (zeros c) r.pairing ∧
          (∀ r', r'.Follows (Costs.ofInts c') r.pairing → r.Progress r') ∧
            ∀ fuel, go (fuel + 1) (Costs.ofInts c) p =
              ⟨r :: (go fuel (Costs.ofInts c') r.pairing).rounds,
                (go fuel (Costs.ofInts c') r.pairing).ending⟩ := by
  have less := size_lt_of_assignment? incomplete
  have htight := Costs.tight_eq_zeros c
  obtain ⟨valid', -, hend⟩ := Pairing.maximize_spec valid
  -- The search for a larger pairing was in vain, which makes the reached lines a cover.
  obtain ⟨e, barrier⟩ := hend.resolve_left less.ne
  obtain ⟨d, c', huncovered, hslack, hadjust, adjustment⟩ :=
    exists_adjustment valid' barrier less
  have hcover := barrier.cover?_eq valid'
  have reduced' := adjustment.reduced reduced valid' (barrier.not_reached_of_exposed valid')
  have hvalid := adjustment.tightening.valid valid'
  obtain ⟨-, extends', -⟩ := Pairing.maximize_spec hvalid
  let r : Round n := ⟨p.maximize (zeros c), (Reach.all (zeros c) (p.maximize (zeros c))).cover,
    .int d, Costs.ofInts c'⟩
  refine ⟨r, c', ?_, rfl, rfl, reduced', hvalid,
    remaining_lt valid' barrier less adjustment.tightening reduced'.row_tight extends',
    fun r' hr' => progress_of_follows hvalid adjustment rfl rfl hr', fun fuel => ?_⟩
  · constructor
    case pairing_eq => rw [htight]
    case incomplete => exact less
    case cover_eq => rw [htight, hcover]
    case uncovered => exact huncovered
    case slack_eq => exact hslack
    case positive => exact ⟨d, adjustment.positive reduced.nonneg, rfl⟩
    case excess_eq => exact hadjust
  · rw [← htight] at incomplete hcover hslack hadjust
    refine (go_round incomplete hcover hslack hadjust).trans ?_
    rw [htight]

theorem Run.go_of_assignment? {fuel : Nat} {columns : Table (Fin n) n}
    (h : (p.maximize (zeros c)).assignment? = some columns) :
    go (fuel + 1) (Costs.ofInts c) p = ⟨[], .assigned (p.maximize (zeros c)) columns⟩ := by
  rw [← Costs.tight_eq_zeros] at h ⊢
  exact go_assigned h

/-- **A run with enough rounds** assigns a column to each row. -/
theorem Run.go_ends {fuel : Nat} (reduced : Reduced cost c) (valid : p.Valid (zeros c))
    (enough : remaining (zeros c) (p.maximize (zeros c)) < fuel) :
    ∃ q columns c', (go fuel (Costs.ofInts c) p).ending = .assigned q columns ∧
      q.assignment? = some columns ∧ q.Valid (zeros c') ∧ Reduced cost c' ∧
        (go fuel (Costs.ofInts c) p).rounds.length ≤ remaining (zeros c) (p.maximize (zeros c)) ∧
          Course (Costs.ofInts c) p (go fuel (Costs.ofInts c) p).rounds := by
  -- Each round leaves a smaller remainder, so the rounds do not run out.
  induction fuel generalizing c p with
  | zero => omega
  | succ fuel ih =>
    cases hassigned : (p.maximize (zeros c)).assignment? with
    | some columns =>
      obtain ⟨valid', -, -⟩ := Pairing.maximize_spec valid
      rw [go_of_assignment? hassigned]
      exact ⟨_, columns, c, rfl, hassigned, valid', reduced, Nat.zero_le _, trivial⟩
    | none =>
      obtain ⟨r, c', follows, hpairing, hexcess, reduced', valid', hlt, progress, hgo⟩ :=
        exists_round reduced valid hassigned
      rw [← hpairing] at enough ⊢
      obtain ⟨q, columns, c'', hending, hq, hqvalid, hreduced, hlength, course⟩ :=
        ih reduced' valid' (by omega)
      rw [hgo]
      refine ⟨q, columns, c'', hending, hq, hqvalid, hreduced, ?_, follows, ?_, ?_⟩
      · rw [List.length_cons]
        omega
      · intro r' hr'
        exact progress r' (course.head r' hr')
      · rw [hexcess]
        exact course

theorem Run.ofExcess_ends (reduced : Reduced cost c) :
    ∃ q columns c', (ofExcess (Costs.ofInts c)).ending = .assigned q columns ∧
      q.assignment? = some columns ∧ q.Valid (zeros c') ∧ Reduced cost c' ∧
        (ofExcess (Costs.ofInts c)).rounds.length ≤ triangle n ∧
          Course (Costs.ofInts c) .empty (ofExcess (Costs.ofInts c)).rounds := by
  have hle := remaining_le (p := Pairing.empty.maximize (zeros c)) reduced.row_tight
  have enough : remaining (zeros c) (Pairing.empty.maximize (zeros c)) < n * n + 1 :=
    Nat.lt_succ_of_le (hle.trans (triangle_le n))
  obtain ⟨q, columns, c', hending, hq, valid, reduced', hlength, course⟩ :=
    go_ends reduced (Pairing.valid_empty _) enough
  exact ⟨q, columns, c', hending, hq, valid, reduced', hlength.trans hle, course⟩

/-- The columns that a valid pairing assigns to the rows are all columns, each once. -/
theorem bijective_of_assignment? {tight : Tight n} {columns : Table (Fin n) n}
    (valid : p.Valid tight) (h : p.assignment? = some columns) :
    Function.Bijective columns.get := by
  rw [Pairing.assignment?_eq_some_iff] at h
  refine Finite.injective_iff_bijective.1 fun i i' heq => ?_
  have hi := valid.rowOf (h i)
  rw [heq, valid.rowOf (h i')] at hi
  exact (Option.some.inj hi).symm

theorem size_of_assignment? {columns : Table (Fin n) n} (h : p.assignment? = some columns) :
    p.size = n := by
  rw [Pairing.assignment?_eq_some_iff] at h
  refine Nat.le_antisymm p.size_le (Nat.le_of_not_lt fun less => ?_)
  obtain ⟨i, hi⟩ := Pairing.size_lt_iff.1 less
  simp [h i] at hi

/-- **The run on integer costs** ends with an assignment of the columns to the rows, after at most
`n * (n - 1) / 2` adjustments, which is the number that it reports. In each round before that the
reached lines are a minimum cover, the least uncovered excess exists and is positive, and the next
round has a larger pairing, or the same one and more columns reached. -/
theorem run_ends_within_triangle (c : Fin n → Fin n → Int) :
    ∃ excess, (Costs.ofInts c).excess? = some excess ∧
      (∃ p columns, (Run.ofExcess excess).ending = .assigned p columns ∧
        (Run.ofExcess excess).assignment = .ok columns ∧ p.size = n ∧
          Function.Bijective columns.get) ∧
      (Run.ofExcess excess).rounds.length ≤ n * (n - 1) / 2 ∧
      Report.assigned (Run.ofExcess excess).rounds.length ∈ (Run.ofExcess excess).reports ∧
      Course excess .empty (Run.ofExcess excess).rounds := by
  obtain ⟨c₀, hc₀, reduced⟩ := Costs.excess?_ofInts c
  obtain ⟨q, columns, c', hending, hq, valid, -, hlength, course⟩ := Run.ofExcess_ends reduced
  refine ⟨_, hc₀, ⟨q, columns, hending, ?_, size_of_assignment? hq,
    bijective_of_assignment? valid hq⟩, ?_, ?_, course⟩
  · rw [Run.assignment, hending]
  · rw [← Finset.sum_range_id]
    exact hlength
  · rw [Run.reports, hending]
    simp

end OptimalMatching.Assignment
