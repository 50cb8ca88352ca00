import OptimalMatching.Proofs.Assignment.Maximum
/-!
# Minimum covers and maximum pairings

**The order does not matter.** Lines are reached from the rows that are pending, one after the
other, and it does not matter which of them comes next (`Reach.Walk`): after at most `n` of them
none is left, and then the same lines have been reached (`Reach.Walk.cover_eq`).

**König's theorem.** The reached lines always give a cover of the tight cells. It has as many lines
as the pairing has cells if no exposed column is reached, because then the lines that are not
reached are a barrier; the pairing is maximum in that case and in no other
(`Pairing.maximum_iff_not_reached`). So a cover is found from the maximum pairings only, and by
duality none has fewer lines.
-/

namespace OptimalMatching

variable {n : Nat} {tight : Tight n} {p : Pairing n} {r : Reach n} {cover : Cover n} {steps : Nat}

/-! ## Any order -/

namespace Reach

/-- What is reached after some rows have been worked off, each one taken from anywhere among those
that were pending. -/
inductive Walk (tight : Tight n) (p : Pairing n) : Nat → Reach n → Prop where
  | start : Walk tight p 0 (start p)
  | next {steps : Nat} {r : Reach n} {i : Fin n} {rest : List (Fin n)}
      (before : Walk tight p steps r) (pending : r.pending.Perm (i :: rest)) :
      Walk tight p (steps + 1) (expand tight p i { r with pending := rest })

namespace Walk

/-- Each row that is worked off takes one away from the rows that are pending or not reached. -/
theorem sound (walk : Walk tight p steps r) : r.Sound tight p none ∧ steps + r.work = n := by
  induction walk with
  | start => exact ⟨sound_start tight p, by rw [work_start, Nat.zero_add]⟩
  | next _ pending ih =>
    obtain ⟨h, hwork⟩ := ih
    obtain ⟨h', hwork'⟩ := h.workOff pending
    exact ⟨h', by omega⟩

theorem close (walk : Walk tight p steps r) (more : Nat) :
    ∃ steps', Walk tight p steps' (r.close tight p more) := by
  induction more generalizing steps r with
  | zero => exact ⟨steps, walk⟩
  | succ more ih =>
    rw [Reach.close]
    split
    · exact ⟨steps, walk⟩
    · next i rest hpending => exact ih (walk.next (.of_eq hpending))

/-- **Whatever the order**, the same cover belongs to the lines that are reached in the end. -/
theorem cover_eq (walk : Walk tight p steps r) (done : r.pending = []) :
    r.cover = (all tight p).cover := by
  obtain ⟨h, -⟩ := walk.sound
  have hrows : r.rows = (all tight p).rows := Table.ext fun i =>
    Bool.eq_iff_iff.2 ((h.get_rows done i).trans (all_rows tight p i).symm)
  have hcolumns : r.columns = (all tight p).columns := Table.ext fun j =>
    Bool.eq_iff_iff.2 ((h.get_columns done j).trans (all_columns tight p j).symm)
  rw [cover, cover, hrows, hcolumns]

end Walk

end Reach

/-! ## Covers and maximum pairings -/

namespace Pairing

/-- If no exposed column is reached, the lines that are not reached are a barrier. -/
theorem Valid.exists_barrier (valid : p.Valid tight)
    (unreached : ∀ j, p.rowOf.get j = none → ¬ ReachedColumn tight p j) :
    ∃ e, p.Barrier tight e := by
  let e : Entered n := ⟨(Reach.all tight p).cover.rows, (Reach.all tight p).columns.map not⟩
  have hrow : ∀ i, e.rows.get i = true ↔ ¬ ReachedRow tight p i := Reach.cover_rows tight p
  have hcolumn : ∀ j, e.columns.get j = true ↔ ¬ ReachedColumn tight p j := fun j => by
    rw [← Reach.all_columns]
    simp [e]
  refine ⟨e, ⟨fun {i k} hk hik => ?_, fun {i} hi => ?_⟩, fun {j} hj => ?_⟩
  · rw [hrow]
    exact fun hi => (hcolumn k).1 hk ⟨i, hi, hik⟩
  · obtain ⟨k, hk⟩ := (reachedRow_or_paired tight p i).resolve_left ((hrow i).1 hi)
    refine ⟨k, hk, ?_⟩
    rw [hcolumn, ← valid.reached_iff hk, ← hrow]
    exact hi
  · exact (hcolumn j).2 (unreached j hj)

theorem Valid.columns_eq_univ (valid : p.Valid tight) (h : p.size = n) :
    p.columns = Finset.univ := by
  refine Finset.eq_univ_of_card _ ?_
  rw [← valid.card_rows, ← size_eq_card, h, Fintype.card_fin]

/-- **A valid pairing is maximum** exactly when no exposed column is reached. -/
theorem maximum_iff_not_reached (valid : p.Valid tight) :
    p.Maximum tight ↔ ∀ j, p.rowOf.get j = none → ¬ ReachedColumn tight p j := by
  constructor
  · intro maximum j hj
    obtain ⟨-, -, hend⟩ := maximize_spec valid
    rw [maximum.maximize_eq valid] at hend
    rcases hend with hfull | ⟨e, barrier⟩
    · have hmem : j ∈ p.columns := valid.columns_eq_univ hfull ▸ Finset.mem_univ j
      exact absurd hmem (not_mem_columns.2 hj)
    · exact barrier.not_reached_of_exposed valid hj
  · intro unreached
    obtain ⟨e, barrier⟩ := valid.exists_barrier unreached
    exact maximum_of_cover? valid (barrier.cover?_eq valid)

/-- A cover is found from the maximum pairings, and from no other ones. -/
theorem cover?_eq_none_iff (valid : p.Valid tight) :
    p.cover? tight = none ↔ ¬ p.Maximum tight := by
  constructor
  · intro h maximum
    obtain ⟨e, barrier⟩ := valid.exists_barrier ((maximum_iff_not_reached valid).1 maximum)
    rw [barrier.cover?_eq valid] at h
    cases h
  · intro h
    refine Option.eq_none_iff_forall_ne_some.2 fun cover hcover => h ?_
    exact maximum_of_cover? valid hcover

/-- What a cover is good for that has been found from a pairing: it covers all tight cells with as
many lines as the pairing has cells, no cover has fewer, and of a paired cell one line belongs to it
and the other does not. -/
structure MinimumCover (tight : Tight n) (p : Pairing n) (cover : Cover n) : Prop where
  covered : ∀ i j, tight i j = true → cover.rows.get i = true ∨ cover.columns.get j = true
  size_eq : cover.size = p.size
  least : ∀ cover' : Cover n, (∀ i j, tight i j = true →
    cover'.rows.get i = true ∨ cover'.columns.get j = true) → cover.size ≤ cover'.size
  once : ∀ i j, p.columnOf.get i = some j →
    (cover.rows.get i = true ↔ ¬ cover.columns.get j = true)

theorem Valid.minimumCover (valid : p.Valid tight) (h : p.cover? tight = some cover) :
    p.MinimumCover tight cover := by
  obtain ⟨rfl, hsize⟩ := cover_of_cover? h
  rw [valid.columnCount_eq_size] at hsize
  refine ⟨Cover.coversAll_iff.1 (Reach.coversAll_cover tight p), hsize, fun cover' covered => ?_,
    fun i j hij => ?_⟩
  · rw [hsize, ← card_cells]
    exact valid.independent_cells.card_le_size (Cover.coversAll_iff.2 covered)
  · rw [Reach.cover_rows, Reach.cover_columns, valid.reached_iff hij]

end Pairing

/-- **Finding a cover** of the zeros of integer excesses comes to its end from every valid pairing:
whichever pending row is taken next, none is left after at most `n` of them, and the cover is the
same. There is no cover exactly when the pairing is not maximum, which shows in an exposed column
that is reached. Otherwise every zero is covered, the lines are as many as the paired cells, no
cover has fewer, and each paired cell lies in exactly one line. -/
theorem cover_found_iff_maximum (c : Fin n → Fin n → Int) (valid : p.Valid (zeros c)) :
    (∃ steps, Reach.Walk (zeros c) p steps (Reach.all (zeros c) p)) ∧
    (Reach.all (zeros c) p).pending = [] ∧
    (∀ steps r, Reach.Walk (zeros c) p steps r →
      steps ≤ n ∧ (r.pending = [] → r.cover = (Reach.all (zeros c) p).cover)) ∧
    (p.cover? (Costs.ofInts c).tight = none ↔ ¬ p.Maximum (zeros c)) ∧
    (p.Maximum (zeros c) ↔ ∀ j, p.rowOf.get j = none → ¬ ReachedColumn (zeros c) p j) ∧
    ∀ cover, p.cover? (Costs.ofInts c).tight = some cover → p.MinimumCover (zeros c) cover := by
  rw [Costs.tight_eq_zeros]
  refine ⟨Reach.Walk.start.close n, (Reach.sound_all (zeros c) p).2, fun steps r walk => ?_,
    Pairing.cover?_eq_none_iff valid, Pairing.maximum_iff_not_reached valid,
    fun cover h => valid.minimumCover h⟩
  obtain ⟨-, hwork⟩ := walk.sound
  exact ⟨hwork ▸ Nat.le_add_right _ _, walk.cover_eq⟩

theorem cover_found_iff_maximum_hook : hookCorner.Valid (zeros hook) ∧
    hookCorner.cover? (Costs.ofInts hook).tight = none ∧ ¬ hookCorner.Maximum (zeros hook) ∧
      (∃ j, hookCorner.rowOf.get j = none ∧ ReachedColumn (zeros hook) hookCorner j) ∧
    ∃ q cover, hookCorner.maximize (zeros hook) = q ∧ q.Valid (zeros hook) ∧
      q.Maximum (zeros hook) ∧ q.cover? (Costs.ofInts hook).tight = some cover ∧
        q.MinimumCover (zeros hook) cover := by
  have valid : hookCorner.Valid (zeros hook) := ⟨by decide, by decide⟩
  obtain ⟨valid', -⟩ := Pairing.maximize_spec valid
  have hnone : hookCorner.cover? (Costs.ofInts hook).tight = none := by decide +kernel
  have hsome : ((hookCorner.maximize (zeros hook)).cover? (Costs.ofInts hook).tight).isSome =
      true := by decide +kernel
  obtain ⟨cover, hcover⟩ := Option.isSome_iff_exists.1 hsome
  obtain ⟨-, -, -, hiff, hreached, -⟩ := cover_found_iff_maximum hook valid
  obtain ⟨-, -, -, hiff', -, minimum⟩ := cover_found_iff_maximum hook valid'
  refine ⟨valid, hnone, hiff.1 hnone, ?_, _, cover, rfl, valid', ?_, hcover,
    minimum cover hcover⟩
  · have hnot := hiff.1 hnone
    rw [hreached] at hnot
    push Not at hnot
    exact hnot
  · by_contra hnot
    rw [hiff'.2 hnot] at hcover
    cases hcover

end OptimalMatching
