import OptimalMatching.Proofs.Assignment.Trail
/-!
# Sharing what has been entered

The searches of a sweep do not enter a row or a column that an earlier search of the same sweep has
entered, though the earlier search knew nothing of the column from which the later one starts.

**Nothing is hidden.** As long as all searches have been in vain, what they have entered is closed
(`Pairing.InVain.closed`): no tight cell and no paired cell leads out of it, and no exposed row is
in it. A path to an exposed row that touches it would stay in it (`Entered.Closed.not_augments`), so
the paths that are left are those that no earlier search can have touched. A search that goes on
with what has been entered finds a path exactly if there is one, as a search that starts afresh does
(`shared_marks_hide_no_path`).
-/

namespace OptimalMatching

variable {n : Nat} {tight : Tight n} {p q : Pairing n} {e e' : Entered n} {i j k : Fin n}
  {path : AugmentingPath n}

namespace Pairing

/-! ## Alternating paths -/

/-- A path from a column to an exposed row on which tight cells that are not paired alternate with
paired ones: by the former it goes from a column to a row, and by the latter from a row to its
column. It goes through no line twice. -/
structure AlternatingPath (tight : Tight n) (p : Pairing n) (j : Fin n)
    (path : AugmentingPath n) : Prop where
  augments : p.Augments tight j path
  unpaired : ∀ c ∈ path, p.columnOf.get c.1 ≠ some c.2
  rows : (path.map Prod.fst).Nodup
  columns : (path.map Prod.snd).Nodup

theorem Augments.column_cases (h : Augments tight p j path) {x : Fin n}
    (hx : x ∈ path.map Prod.snd) : x = j ∨ ∃ i ∈ path.map Prod.fst, p.columnOf.get i = some x := by
  induction h with
  | last _ _ => exact .inl (List.mem_singleton.1 hx)
  | @step i j k path _ partner _ ih =>
    rcases List.mem_cons.1 hx with rfl | hx
    · exact .inl rfl
    · right
      rcases ih hx with rfl | ⟨i', hi', hx⟩
      · exact ⟨i, List.mem_cons_self, partner⟩
      · exact ⟨i', List.mem_cons_of_mem _ hi', hx⟩

/-- A path through different rows alternates, unless one of them is paired with the first column. -/
theorem Augments.alternatingPath (h : Augments tight p j path) (valid : p.Valid tight)
    (nodup : (path.map Prod.fst).Nodup)
    (fresh : ∀ i ∈ path.map Prod.fst, p.columnOf.get i ≠ some j) :
    p.AlternatingPath tight j path := by
  induction h with
  | @last i j hij free => exact ⟨.last hij free, by simp [free], by simp, by simp⟩
  | @step i j k path hij partner rest ih =>
    obtain ⟨hi, nodup⟩ := List.nodup_cons.1 nodup
    have fresh' : ∀ i' ∈ path.map Prod.fst, p.columnOf.get i' ≠ some k := by
      intro i' hi' hk
      obtain rfl : i' = i := Option.some.inj ((valid.rowOf hk).symm.trans (valid.rowOf partner))
      exact hi hi'
    have later := ih nodup fresh'
    refine ⟨.step hij partner rest, fun c hc => ?_, List.nodup_cons.2 ⟨hi, nodup⟩,
      List.nodup_cons.2 ⟨fun hj => ?_, later.columns⟩⟩
    · rcases List.mem_cons.1 hc with rfl | hc
      · exact fresh i List.mem_cons_self
      · exact later.unpaired c hc
    · rcases rest.column_cases hj with rfl | ⟨i', hi', hj⟩
      · exact fresh i List.mem_cons_self partner
      · exact fresh i' (List.mem_cons_of_mem _ hi') hj

end Pairing

/-! ## Closed sets -/

namespace Entered.Closed

/-- No path starts in a closed set: it could not leave it, and no exposed row is in it. -/
theorem not_augments (closed : e.Closed tight p) (hj : e.columns.get j = true) :
    ¬ p.Augments tight j path := by
  intro h
  induction h with
  | last hij free =>
    obtain ⟨k, hk, -⟩ := closed.row (closed.column hj hij)
    rw [free] at hk
    cases hk
  | step hij partner _ ih =>
    obtain ⟨k', hk', hentered⟩ := closed.row (closed.column hj hij)
    obtain rfl := Option.some.inj (partner.symm.trans hk')
    exact ih hentered

/-- **From a closed set on**, a search finds a path exactly if there is one. -/
theorem finds_iff (closed : e.Closed tight p) (valid : p.Valid tight)
    (exposed : p.rowOf.get j = none) :
    (p.grow? tight j e).1.isSome = true ↔ ∃ path, p.AlternatingPath tight j path := by
  have searched : Pairing.Searched tight p j _ _ _ := Pairing.search_searched j e
  unfold Pairing.grow?
  rcases hsearch : p.search tight j e with ⟨_ | path, e'⟩
  · rw [hsearch] at searched
    refine iff_of_false (by simp) ?_
    rintro ⟨path, hpath⟩
    have hj : e'.columns.get j = true :=
      searched.columns ((get_columns_enterColumn ..).2 (.inl rfl))
    exact (Pairing.closed_of_searched searched closed).not_augments hj hpath.augments
  · rw [hsearch] at searched
    obtain ⟨augments, nodup, -⟩ := searched
    refine iff_of_true rfl ⟨path, augments.alternatingPath valid nodup fun i _ hi => ?_⟩
    rw [valid.inverse, exposed] at hi
    cases hi

end Entered.Closed

/-! ## Searches one after the other -/

/-- Whether a search comes to its end with this answer. -/
def Trail.Answers (tight : Tight n) (t : Trail n) (found : Bool) : Prop :=
  ∃ q e, t.Ends tight found q e

theorem Trail.start_answers_iff {found : Bool} :
    (start p j e).Answers tight found ↔ (p.grow? tight j e).1.isSome = found := by
  constructor
  · rintro ⟨q, f, hends⟩
    exact (hends.unique (start_ends tight p j e)).1
  · rintro rfl
    exact ⟨_, _, start_ends tight p j e⟩

namespace Pairing

/-- The pairing and what has been entered after any number of searches from exposed columns, each of
which has started from what the one before it has left, and all of which have been in vain. -/
inductive InVain (tight : Tight n) (p : Pairing n) : Pairing n → Entered n → Prop where
  | start : InVain tight p p .nowhere
  | search {q q' : Pairing n} {e e' : Entered n} {j : Fin n} (before : InVain tight p q e)
      (exposed : q.rowOf.get j = none) (ends : (Trail.start q j e).Ends tight false q' e') :
      InVain tight p q' e'

/-- **Searches in vain** leave the pairing as it is, and what they have entered is closed. -/
theorem InVain.closed (h : InVain tight p q e) : q = p ∧ e.Closed tight p := by
  induction h with
  | start => exact ⟨rfl, Entered.closed_nowhere tight p⟩
  | @search q q' e e' j _ _ ends ih =>
    obtain ⟨rfl, closed⟩ := ih
    have searched : Searched tight q j _ _ _ := search_searched j e
    have hends := ends.unique (Trail.start_ends tight q j e)
    unfold grow? at hends
    rcases hsearch : q.search tight j e with ⟨_ | path, f⟩
    · rw [hsearch] at hends searched
      obtain ⟨-, rfl, rfl⟩ := hends
      exact ⟨rfl, closed_of_searched searched closed⟩
    · rw [hsearch] at hends
      cases hends.1

end Pairing

/-- **Sharing what has been entered hides no path.** After any number of searches that were all in
vain, each going on with what the earlier ones have entered, the search from one more exposed column
finds a path exactly if there is an alternating path from this column to an exposed row, and so
exactly if it finds one when nothing has been entered before. -/
theorem shared_marks_hide_no_path (c : Fin n → Fin n → Int) (valid : p.Valid (zeros c))
    (vain : p.InVain (zeros c) q e) (exposed : q.rowOf.get j = none) :
    ((Trail.start q j e).Answers (zeros c) true ↔ ∃ path, p.AlternatingPath (zeros c) j path) ∧
    ((Trail.start q j e).Answers (zeros c) false ↔
      ¬ ∃ path, p.AlternatingPath (zeros c) j path) ∧
    ∀ found, (Trail.start q j e).Answers (zeros c) found ↔
      (Trail.start p j .nowhere).Answers (zeros c) found := by
  obtain ⟨rfl, closed⟩ := vain.closed
  have shared := closed.finds_iff valid exposed
  have fresh := (Entered.closed_nowhere (zeros c) q).finds_iff valid exposed
  simp only [Trail.start_answers_iff]
  refine ⟨shared, ?_, fun found => ?_⟩
  · rw [← shared, Bool.not_eq_true]
  · rw [Bool.eq_iff_iff.2 (shared.trans fresh.symm)]

/-- Excesses in which a search from column 2 is in vain, and enters row 0, to which column 3 would
lead as well. -/
def crowded (i j : Fin 4) : Int :=
  if [(0, 0), (0, 1), (0, 2), (0, 3), (1, 1), (1, 3), (3, 1)].contains (i.val, j.val) then 0 else 1

/-- The first two rows are paired with the first two columns. -/
def crowdedPairing : Pairing 4 :=
  Pairing.empty.linkAll (((List.finRange 4).take 2).map fun i => (i, i))

theorem shared_marks_hide_no_path_crowded : crowdedPairing.Valid (zeros crowded) ∧
    crowdedPairing.rowOf.get 3 = none ∧
      ∃ e, crowdedPairing.InVain (zeros crowded) crowdedPairing e ∧ e.rows.get 0 = true ∧
        (Trail.start crowdedPairing 3 e).Answers (zeros crowded) true ∧
          (Trail.start crowdedPairing 3 .nowhere).Answers (zeros crowded) true ∧
            ∃ path, crowdedPairing.AlternatingPath (zeros crowded) 3 path := by
  have valid : crowdedPairing.Valid (zeros crowded) := ⟨by decide, by decide⟩
  have exposed : crowdedPairing.rowOf.get 3 = none := by decide
  have hvain : (crowdedPairing.grow? (zeros crowded) 2 .nowhere).1 = none := by decide +kernel
  have ends := Trail.start_ends (zeros crowded) crowdedPairing 2 .nowhere
  rw [hvain] at ends
  have vain : crowdedPairing.InVain (zeros crowded) crowdedPairing _ :=
    .search .start (by decide) ends
  obtain ⟨hpath, -, hfresh⟩ := shared_marks_hide_no_path crowded valid vain exposed
  have found := Trail.start_answers_iff.2 (by decide +kernel :
    (crowdedPairing.grow? (zeros crowded) 3
      (crowdedPairing.grow? (zeros crowded) 2 .nowhere).2).1.isSome = true)
  exact ⟨valid, exposed, _, vain, by decide +kernel, found, (hfresh true).1 found, hpath.1 found⟩

end OptimalMatching
