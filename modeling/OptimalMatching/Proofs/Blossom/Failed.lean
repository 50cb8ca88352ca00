import OptimalMatching.Proofs.Blossom.Course
/-!
# Searching again from a root that has failed

A root whose search fails is stuck, and a search from a stuck vertex fails: flipping a path from it
would give a matching that covers it in addition (`Stuck.search_fails`). The matchings that a pass
comes to later cover everything that was covered before (`Course.grows`). So the root stays stuck,
and each later search from it would fail as well.

At the end of a pass all exposed vertices are stuck. Another pass from there treats each of them
once more and leaves the matching as it is (`Run.go?_of_stuck`).
-/

namespace OptimalMatching.Blossom

variable {n : Nat} {neighbors : Neighbors n} {mates final : Mates n} {root : Fin n}
  {roots : List (Fin n)} {rounds earlier later : List (Round n)} {r : Round n}

/-! ## Stuck vertices -/

theorem Stuck.search_fails (stuck : Stuck neighbors mates root) (valid : mates.Valid neighbors)
    (simple : neighbors.Simple) :
    ∃ f, searchFrom neighbors mates root = some f ∧ f.last? = none := by
  have exposed := stuck.exposed valid (Finset.Subset.refl _)
  obtain ⟨r, hr, sound⟩ := treatRoot?_sound simple valid exposed
  refine ⟨r.finding, (treatRoot?_eq_some hr).1, ?_⟩
  cases hlast : r.finding.last? with
  | none => rfl
  | some v =>
    have hsome := ((sound.augmented hlast).2.2 root).2 (.inr (.inl rfl))
    simp [stuck.exposed sound.valid sound.covered_subset] at hsome

theorem Round.Exact.stuck (h : r.Exact neighbors mates root) (valid : mates.Valid neighbors)
    (simple : neighbors.Simple) (failed : r.finding.last? = none) :
    Stuck neighbors mates root := by
  obtain ⟨f, hf, good⟩ := searchFrom_ends valid simple h.exposed
  obtain rfl := Option.some.inj (h.searched.symm.trans hf)
  rw [Finding.Good, failed] at good
  exact good.stuck valid simple

theorem Round.Exact.covered_subset (h : r.Exact neighbors mates root) :
    mates.covered ⊆ r.after.covered := by
  cases hlast : r.finding.last? with
  | none => rw [h.unchanged hlast]
  | some v =>
    rw [(h.covered hlast).2.2]
    exact (Finset.subset_insert _ _).trans (Finset.subset_insert _ _)

/-! ## Later matchings -/

/-- The matchings of a pass: those before and after each round, and the final one. -/
def matchings (rounds : List (Round n)) (final : Mates n) : List (Mates n) :=
  rounds.flatMap (fun r => [r.before, r.after]) ++ [final]

namespace Course

theorem valid (course : Course neighbors mates roots rounds final) : mates.Valid neighbors := by
  cases course <;> assumption

theorem grows (course : Course neighbors mates roots rounds final) :
    ∀ m ∈ matchings rounds final, m.Valid neighbors ∧ mates.covered ⊆ m.covered := by
  induction course with
  | done valid =>
    intro m hm
    obtain rfl := List.mem_singleton.1 hm
    exact ⟨valid, Finset.Subset.refl _⟩
  | skip _ _ _ ih => exact ih
  | @treat mates final root roots r rounds valid exact' course ih =>
    intro m hm
    have hm' : m = r.before ∨ m = r.after ∨ m ∈ matchings rounds final := by
      simpa [matchings] using hm
    rcases hm' with rfl | rfl | hm
    · rw [exact'.before_eq]
      exact ⟨valid, Finset.Subset.refl _⟩
    · exact ⟨course.valid, exact'.covered_subset⟩
    · exact ⟨(ih m hm).1, exact'.covered_subset.trans (ih m hm).2⟩

/-- What a pass does from one of its rounds on. -/
theorem from_round (course : Course neighbors mates roots (earlier ++ r :: later) final) :
    ∃ roots', r.before.Valid neighbors ∧ r.Exact neighbors r.before r.root ∧
      Course neighbors r.after roots' later final := by
  generalize hrounds : earlier ++ r :: later = rounds at course
  induction course generalizing earlier with
  | done => simp at hrounds
  | skip _ _ _ ih => exact ih hrounds
  | @treat mates final root roots r' rounds valid exact' course ih =>
    cases earlier with
    | nil =>
      obtain ⟨rfl, rfl⟩ := List.cons.inj hrounds
      rw [exact'.before_eq, exact'.root_eq]
      exact ⟨roots, valid, exact', course⟩
    | cons e earlier => exact ih (List.cons.inj hrounds).2

end Course

/-! ## Another pass -/

/-- A pass over stuck and covered roots leaves the matching as it is. -/
theorem Run.go?_of_stuck (simple : neighbors.Simple) (valid : mates.Valid neighbors)
    (stuck : ∀ v ∈ roots, mates.get v = none → Stuck neighbors mates v) :
    ∃ r, go? neighbors roots mates = some r ∧ r.mates = mates ∧ r.augmentations = 0 := by
  induction roots with
  | nil => exact ⟨⟨[], mates⟩, rfl, rfl, rfl⟩
  | cons root rest ih =>
    obtain ⟨later, hlater, hmates, hnone⟩ := ih fun v hv => stuck v (List.mem_cons_of_mem _ hv)
    unfold go?
    split_ifs with hroot
    · exact ⟨later, hlater, hmates, hnone⟩
    · obtain ⟨f, hf, failed⟩ :=
        (stuck root List.mem_cons_self (by simpa using hroot)).search_fails valid simple
      have htreat : treatRoot? neighbors mates root = some ⟨root, mates, f, mates⟩ := by
        simp [treatRoot?, hf, failed]
      refine ⟨⟨⟨root, mates, f, mates⟩ :: later.rounds, later.mates⟩, by simp [htreat, hlater],
        hmates, ?_⟩
      simpa [augmentations, failed] using hnone

/-- **A failed search fails again.** On a graph without loops, a pass over the roots comes to its
end. If the search of one of its rounds finds nothing, then a search from the same root finds
nothing in any matching that the pass comes to later. So another pass from the final matching makes
no augmentation, and leaves the matching as it is. -/
theorem failed_searches_fail_again (simple : neighbors.Simple) (valid : mates.Valid neighbors) :
    ∃ run, Run.from? neighbors mates = some run ∧
      (∀ earlier r later, run.rounds = earlier ++ r :: later →
        searchFrom neighbors r.before r.root = some r.finding ∧
          (r.finding.last? = none → ∀ m ∈ r.after :: matchings later run.mates,
            ∃ f, searchFrom neighbors m r.root = some f ∧ f.last? = none)) ∧
      ∃ again, Run.from? neighbors run.mates = some again ∧ again.augmentations = 0 ∧
        again.mates = run.mates := by
  obtain ⟨run, hrun, valid', -, stuck⟩ := Run.go?_ends simple (List.finRange n) valid
  obtain ⟨run', hrun', course⟩ : ∃ r, Run.from? neighbors mates = some r ∧
      Course neighbors mates (List.finRange n) r.rounds r.mates := Run.go?_course simple valid
  obtain rfl := Option.some.inj (hrun.symm.trans hrun')
  refine ⟨run, hrun, fun earlier r later hrounds => ?_, ?_⟩
  · rw [hrounds] at course
    obtain ⟨roots', valid₀, exact', course'⟩ := course.from_round
    refine ⟨exact'.searched, fun failed m hm => ?_⟩
    have stuck' := (exact'.stuck valid₀ simple failed).mono exact'.covered_subset
    rcases List.mem_cons.1 hm with rfl | hm
    · exact stuck'.search_fails course'.valid simple
    · obtain ⟨validm, sub⟩ := course'.grows m hm
      exact (stuck'.mono sub).search_fails validm simple
  · obtain ⟨again, hagain, hmates, hnone⟩ := Run.go?_of_stuck simple valid' stuck
    exact ⟨again, hagain, hnone, hmates⟩

/-- Three legs at a common vertex, of which one has two edges. -/
def spider : Neighbors 5 := ⟨#v[[1, 2, 3], [0], [0], [0, 4], [3]]⟩

theorem failed_searches_fail_again_spider : spider.Simple ∧
    Mates.Valid spider (.replicate 5 none) ∧
      ∃ run, Run.from? spider (.replicate 5 none) = some run ∧ ∃ earlier r later,
        run.rounds = earlier ++ r :: later ∧ r.root = 2 ∧ r.finding.last? = none ∧
          later.map (fun r => r.finding.last?) = [some 4] ∧
            (∃ f, searchFrom spider run.mates 2 = some f ∧ f.last? = none) ∧
              ∃ again, Run.from? spider run.mates = some again ∧ again.augmentations = 0 := by
  have simple : spider.Simple := ⟨by decide, by decide⟩
  have valid := Mates.valid_replicate spider
  obtain ⟨run, hrun, hlater, again, hagain, hnone, -⟩ := failed_searches_fail_again simple valid
  have hcourse : (Run.from? spider (.replicate 5 none)).map
      (fun run => run.rounds.map fun r => (r.root, r.finding.last?)) =
        some ([(0, some 1)] ++ (2, none) :: [(3, some 4)]) := by decide
  rw [hrun, Option.map_some, Option.some.injEq] at hcourse
  obtain ⟨earlier, rest, hrounds, -, hrest⟩ := List.map_eq_append_iff.1 hcourse
  obtain ⟨r, later, rfl, hr, hrlater⟩ := List.map_eq_cons_iff.1 hrest
  obtain ⟨hroot, failed⟩ := Prod.mk.inj hr
  obtain ⟨f, hf, hlast⟩ := (hlater earlier r later hrounds).2 failed run.mates (by simp [matchings])
  refine ⟨simple, valid, run, hrun, earlier, r, later, hrounds, hroot, failed, ?_,
    ⟨f, hroot ▸ hf, hlast⟩, again, hagain, hnone⟩
  simpa using congrArg (List.map Prod.snd) hrlater

end OptimalMatching.Blossom
