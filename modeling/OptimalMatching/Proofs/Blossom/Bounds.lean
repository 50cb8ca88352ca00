import OptimalMatching.Proofs.Blossom.Ancestor
import OptimalMatching.Proofs.Blossom.Visited
/-!
# The cost of a search

`Search.History` follows a search from point to point and notes which vertices have been appended
to the queue and which contractions have been made.

**The queue.** A vertex is appended when it becomes outer, and it stays outer. So the vertices that
have been appended are the outer ones, each once (`Search.History.counted`).

**Contractions.** Each takes away at least two classes, and one class is left. So there are at most
`(n - 1) / 2` of them.

**The loops of a contraction** come to their end without following a missing link: whenever an entry
closes a blossom, the contraction is derived (`Search.Sound.exists_closing`).
-/

namespace OptimalMatching.Blossom

variable {n : Nat} {neighbors : Neighbors n} {mates : Mates n} {root : Fin n} {t t' : Tree n}
  {s s' : Search n} {c : Contraction n} {f : Finding n} {queued : List (Fin n)}
  {made : List (Contraction n)}

/-! ## The record of a search -/

namespace Search

/-- The vertices that a step from one point to the next appends to the queue. -/
def appended (s s' : Search n) : List (Fin n) := s'.tree.queue.drop s.tree.queue.length

/-- The points that the search from a root comes to, with the vertices that have been appended to
the queue and the contractions that have been made so far. -/
inductive History (neighbors : Neighbors n) (mates : Mates n) (root : Fin n) :
    List (Fin n) → List (Contraction n) → Search n → Prop
  | start : History neighbors mates root [root] [] (.start neighbors root)
  | next {queued : List (Fin n)} {made : List (Contraction n)} {s s' : Search n}
      (before : History neighbors mates root queued made s)
      (hstep : s.step neighbors mates root = .next s') :
      History neighbors mates root (queued ++ s.appended s') made s'
  | contracted {queued : List (Fin n)} {made : List (Contraction n)} {s s' : Search n}
      {c : Contraction n} (before : History neighbors mates root queued made s)
      (hstep : s.step neighbors mates root = .contracted c s') :
      History neighbors mates root (queued ++ s.appended s') (made ++ [c]) s'

def Ends (neighbors : Neighbors n) (mates : Mates n) (root : Fin n) (s : Search n)
    (f : Finding n) : Prop :=
  s.step neighbors mates root =
    match f.last? with
    | some v => .found v f.tree
    | none => .exhausted f.tree

/-- What a step does to the queue: it takes the next vertex from the front, or it appends vertices
at the end. -/
def Queues (s s' : Search n) : Prop :=
  s.entries = [] ∧ s.tree.queue = s'.vertex :: s'.tree.queue ∨
    s'.tree.queue = s.tree.queue ++ s.appended s'

theorem History.visits (history : s.History neighbors mates root queued made) :
    s.Visits neighbors mates root := by
  induction history with
  | start => exact .start
  | next _ hstep ih => exact ih.next hstep
  | contracted _ hstep ih => exact ih.contracted hstep

theorem History.run {fuel : Nat} (history : s.History neighbors mates root queued made)
    (hrun : s.run neighbors mates root fuel = some f) :
    ∃ (queued' : List (Fin n)) (s' : Search n),
      s'.History neighbors mates root queued' (made ++ f.contractions) ∧
        s'.Ends neighbors mates root f := by
  -- Along the run, with the history so far as what is carried from step to step.
  induction fuel generalizing queued made s f with
  | zero => cases hrun
  | succ fuel ih =>
    rw [Search.run] at hrun
    cases hstep : s.step neighbors mates root with
    | next s' =>
      rw [hstep] at hrun
      exact ih (history.next hstep) hrun
    | contracted c s' =>
      rw [hstep] at hrun
      obtain ⟨f, hf, rfl⟩ := Option.map_eq_some_iff.1 hrun
      obtain ⟨queued', s'', history', ends⟩ := ih (history.contracted hstep) hf
      exact ⟨queued', s'', by simpa using history', ends⟩
    | found v tree =>
      rw [hstep] at hrun
      obtain rfl := Option.some.inj hrun
      exact ⟨queued, s, by simpa using history, hstep⟩
    | exhausted tree =>
      rw [hstep] at hrun
      obtain rfl := Option.some.inj hrun
      exact ⟨queued, s, by simpa using history, hstep⟩
    | broken =>
      rw [hstep] at hrun
      cases hrun

/-! ## What a step appends -/

/-- A step that goes on without a contraction takes the next vertex from the queue, or it lets the
tree grow and leaves the bases alone. -/
theorem Sound.next_cases (h : s.Sound neighbors mates root) (valid : mates.Valid neighbors)
    (hstep : s.step neighbors mates root = .next s') :
    s.entries = [] ∧ s.tree = { s'.tree with queue := s'.vertex :: s'.tree.queue } ∨
      s.tree.Extends mates s'.tree ∧ s'.tree.base = s.tree.base := by
  obtain ⟨t, v, entries⟩ := s
  cases entries with
  | nil =>
    simp only [Search.step, Search.nextVertex] at hstep
    split at hstep
    · cases hstep
    · next u rest hqueue =>
      cases hstep
      exact .inl ⟨rfl, by rw [← hqueue]⟩
  | cons w rest =>
    simp only [Search.step, Search.treat] at hstep
    split_ifs at hstep
    · cases hstep
      exact .inr ⟨.refl _ _, rfl⟩
    · split at hstep <;> cases hstep
    · split at hstep
      · cases hstep
        exact .inr ⟨.refl _ _, rfl⟩
      · next free =>
        split at hstep
        · cases hstep
        · next m mate =>
          cases hstep
          -- The tree grows by a matched edge.
          exact .inr ⟨h.tree.extends_attach_enqueue valid free mate, rfl⟩

theorem Sound.extends_of_contracted (h : s.Sound neighbors mates root)
    (valid : mates.Valid neighbors) (simple : neighbors.Simple)
    (hstep : s.step neighbors mates root = .contracted c s') : s.tree.Extends mates s'.tree := by
  obtain ⟨w, rest, stem, hentries, -, houter, hcontract⟩ := step_eq_contracted hstep
  have adj : w ∈ neighbors.get s.vertex := h.entries_sub (hentries ▸ List.mem_cons_self)
  obtain ⟨stem', t', hcontract', -, ext, -⟩ :=
    h.tree.contract valid simple h.vertex_outer ((h.tree.outer_iff w).2 houter) adj
  obtain ⟨-, rfl⟩ := Prod.mk.inj (Option.some.inj (hcontract.symm.trans hcontract'))
  exact ext

/-- When the tree grows, the vertices that become outer are appended, each once. -/
theorem appended_of_extends (ext : s.tree.Extends mates s'.tree) :
    s'.tree.queue = s.tree.queue ++ s.appended s' ∧ (s.appended s').Nodup ∧
      ∀ i, i ∈ s.appended s' ↔ s'.tree.outer.get i = true ∧ s.tree.outer.get i ≠ true := by
  obtain ⟨added, hqueue, nodup, hadded⟩ := ext.queue
  have happended : s.appended s' = added := by rw [appended, hqueue, List.drop_left]
  rw [happended]
  exact ⟨hqueue, nodup, hadded⟩

theorem appended_of_taken (taken : s.tree = { s'.tree with queue := s'.vertex :: s'.tree.queue }) :
    s.appended s' = [] := by
  rw [appended, taken]
  exact List.drop_eq_nil_of_le (Nat.le_succ _)

/-- **Every step** takes a vertex from the front of the queue or appends some at its end. -/
theorem Sound.queues (h : s.Sound neighbors mates root) (valid : mates.Valid neighbors)
    (simple : neighbors.Simple) (hstep : s.step neighbors mates root = .next s' ∨
      ∃ c, s.step neighbors mates root = .contracted c s') : s.Queues s' := by
  rcases hstep with hstep | ⟨c, hstep⟩
  · rcases h.next_cases valid hstep with ⟨done, taken⟩ | ⟨ext, -⟩
    · exact .inl ⟨done, by rw [taken]⟩
    · exact .inr (appended_of_extends ext).1
  · exact .inr (appended_of_extends (h.extends_of_contracted valid simple hstep)).1

/-! ## Counting -/

/-- The vertices that have been appended are the outer ones, each once, and each contraction has
taken away two classes. -/
structure Counted (queued : List (Fin n)) (made : List (Contraction n)) (s : Search n) : Prop where
  nodup : queued.Nodup
  mem_iff : ∀ i, i ∈ queued ↔ s.tree.outer.get i = true
  classes : s.tree.classes.card + 2 * made.length ≤ n

namespace Counted

theorem start (neighbors : Neighbors n) (root : Fin n) :
    Counted [root] [] (.start neighbors root) where
  nodup := List.nodup_singleton root
  mem_iff _ := List.mem_singleton.trans Tree.Alternating.get_outer_ofRoot.symm
  classes := (card_finset_fin_le _ : (Tree.ofRoot root).classes.card ≤ n)

theorem take (h : Counted queued made s)
    (taken : s.tree = { s'.tree with queue := s'.vertex :: s'.tree.queue }) :
    Counted (queued ++ s.appended s') made s' := by
  rw [appended_of_taken taken, List.append_nil]
  refine ⟨h.nodup, fun i => ?_, ?_⟩
  · rw [h.mem_iff, taken]
  · have hclasses := h.classes
    rwa [taken] at hclasses

theorem grow (h : Counted queued made s) (ext : s.tree.Extends mates s'.tree)
    {made' : List (Contraction n)} (classes : s'.tree.classes.card + 2 * made'.length ≤ n) :
    Counted (queued ++ s.appended s') made' s' := by
  obtain ⟨-, nodup, happended⟩ := appended_of_extends ext
  refine ⟨List.nodup_append.2 ⟨h.nodup, nodup, fun i hi j hj => ?_⟩, fun i => ?_, classes⟩
  · -- A vertex that is appended was not outer before.
    rintro rfl
    exact ((happended i).1 hj).2 ((h.mem_iff i).1 hi)
  · rw [List.mem_append, h.mem_iff, happended]
    have := @Tree.Extends.outer _ _ _ _ ext i
    tauto

/-- One class is left, so there have not been more contractions than pairs of other vertices. -/
theorem length_le (h : Counted queued made s) : made.length ≤ (n - 1) / 2 := by
  have hpos : 0 < s.tree.classes.card := Finset.card_pos.2 ⟨_, s.tree.base_mem_classes s.vertex⟩
  have := h.classes
  omega

end Counted

/-- **Counting** what a search has done so far. -/
theorem History.counted (history : s.History neighbors mates root queued made)
    (valid : mates.Valid neighbors) (simple : neighbors.Simple) (exposed : mates.get root = none) :
    Counted queued made s := by
  induction history with
  | start => exact .start neighbors root
  | @next queued made s s' before hstep ih =>
    rcases (before.visits.sound valid simple exposed).next_cases valid hstep with
      ⟨-, taken⟩ | ⟨ext, hbase⟩
    · exact ih.take taken
    · refine ih.grow ext ?_
      rw [Tree.classes, hbase]
      exact ih.classes
  | @contracted queued made s s' c before hstep ih =>
    have sound := before.visits.sound valid simple exposed
    refine ih.grow (sound.extends_of_contracted valid simple hstep) ?_
    obtain ⟨k, hk, hcard⟩ := sound.card_classes valid simple hstep
    have := ih.classes
    rw [List.length_append, List.length_singleton]
    omega

/-! ## Closing a blossom -/

/-- **An entry that closes a blossom** leads to a contraction whose loops come to their end. -/
theorem Sound.exists_closing {w : Fin n} {rest : List (Fin n)} (h : s.Sound neighbors mates root)
    (valid : mates.Valid neighbors) (simple : neighbors.Simple) (hentries : s.entries = w :: rest)
    (apart : s.tree.base.get s.vertex ≠ s.tree.base.get w) (unmatched : mates.get s.vertex ≠ some w)
    (houter : s.tree.isOuter mates root w = true) : ∃ stem seen way marks marks',
      s.tree.Closing mates s.vertex w stem seen way marks marks' ∧
        s.step neighbors mates root = .contracted ⟨s.vertex, w, stem, s.tree.merge stem marks'⟩
          ⟨s.tree.merge stem marks', s.vertex, rest⟩ := by
  have adj : w ∈ neighbors.get s.vertex := h.entries_sub (hentries ▸ List.mem_cons_self)
  obtain ⟨stem, seen, way, marks, marks', closing⟩ :=
    h.tree.exists_closing valid simple h.vertex_outer ((h.tree.outer_iff w).2 houter) adj
  refine ⟨stem, seen, way, marks, marks', closing, ?_⟩
  simp [Search.step, hentries, Search.treat, apart, unmatched, houter, closing.contracts]

end Search

/-- **A search stays within its bounds.** From an exposed vertex of a graph without loops it comes
to its end. Each of its steps takes a vertex from the front of the queue or appends some at the end;
no vertex is appended twice, and at most `(n - 1) / 2` contractions are made. Whenever an entry
closes a blossom, the loops of the contraction come to their end and find every link that they
follow. The base of the blossom is the first one on the way up from the second vertex that is on the
way up from the first, and the same one with the vertices exchanged. -/
theorem searches_stay_within_bounds (simple : neighbors.Simple) (valid : mates.Valid neighbors)
    (exposed : mates.get root = none) :
    (∃ (f : Finding n) (queued : List (Fin n)) (s : Search n),
      searchFrom neighbors mates root = some f ∧
      s.History neighbors mates root queued f.contractions ∧ s.Ends neighbors mates root f) ∧
    ∀ {queued : List (Fin n)} {made : List (Contraction n)} {s : Search n},
      s.History neighbors mates root queued made →
        queued.Nodup ∧ made.length ≤ (n - 1) / 2 ∧
        (∀ s', (s.step neighbors mates root = .next s' ∨
          ∃ c, s.step neighbors mates root = .contracted c s') → s.Queues s') ∧
        ∀ w rest, s.entries = w :: rest → s.tree.base.get s.vertex ≠ s.tree.base.get w →
          mates.get s.vertex ≠ some w → s.tree.isOuter mates root w = true →
            ∃ stem seen way marks marks',
              s.tree.Closing mates s.vertex w stem seen way marks marks' ∧
                s.step neighbors mates root =
                  .contracted ⟨s.vertex, w, stem, s.tree.merge stem marks'⟩
                    ⟨s.tree.merge stem marks', s.vertex, rest⟩ := by
  refine ⟨?_, fun {queued made s} history => ?_⟩
  · obtain ⟨f, hf, -⟩ := searchFrom_ends valid simple exposed
    obtain ⟨queued, s, history, ends⟩ := Search.History.start.run hf
    exact ⟨f, queued, s, hf, history, ends⟩
  · have sound := history.visits.sound valid simple exposed
    have counted := history.counted valid simple exposed
    exact ⟨counted.nodup, counted.length_le, fun s' hstep => sound.queues valid simple hstep,
      fun w rest hentries apart unmatched houter =>
        sound.exists_closing valid simple hentries apart unmatched houter⟩

/-- In the kite, the search from the end of one tail comes to an entry that closes the triangle. -/
theorem exists_history_kite : ∃ (queued : List (Fin 6)) (s : Search 6) (rest : List (Fin 6)),
    s.History kite kitePairs 0 queued [] ∧ queued = [0, 2, 4] ∧ s.entries = 4 :: rest ∧
      s.tree.base.get s.vertex ≠ s.tree.base.get 4 ∧ kitePairs.get s.vertex ≠ some 4 ∧
        s.tree.isOuter kitePairs 0 4 = true :=
  ⟨_, _, _, .next (.next (.next (.next .start rfl) rfl) rfl) rfl, rfl, rfl, by decide⟩

theorem searches_stay_within_bounds_kite : kite.Simple ∧ kitePairs.Valid kite ∧
    kitePairs.get 0 = none ∧ (∃ f, searchFrom kite kitePairs 0 = some f) ∧
      ∃ (s s' : Search 6) (c : Contraction 6) (queued : List (Fin 6)) (seen way : List (Fin 6))
        (marks marks' : Tree.Marks 6), s.History kite kitePairs 0 queued [] ∧ queued = [0, 2, 4] ∧
          queued.Nodup ∧ s.step kite kitePairs 0 = .contracted c s' ∧
            s.tree.Closing kitePairs s.vertex 4 c.stem seen way marks marks' ∧
              s.Queues s' ∧ (queued ++ s.appended s').Nodup := by
  have simple : kite.Simple := ⟨by decide, by decide⟩
  have valid : kitePairs.Valid kite := ⟨by decide, by decide⟩
  have exposed : kitePairs.get 0 = none := by decide
  obtain ⟨queued, s, rest, history, hqueued, hentries, apart, unmatched, houter⟩ :=
    exists_history_kite
  obtain ⟨⟨f, -, -, hf, -⟩, bounds⟩ :=
    searches_stay_within_bounds simple valid exposed
  obtain ⟨nodup, -, queues, closes⟩ := bounds history
  obtain ⟨stem, seen, way, marks, marks', closing, hstep⟩ :=
    closes 4 rest hentries apart unmatched houter
  obtain ⟨nodup', -⟩ := bounds (history.contracted hstep)
  exact ⟨simple, valid, exposed, ⟨f, hf⟩, s, _, _, queued, seen, way, marks, marks', history,
    hqueued, nodup, hstep, closing, queues _ (.inr ⟨_, hstep⟩), nodup'⟩

end OptimalMatching.Blossom
