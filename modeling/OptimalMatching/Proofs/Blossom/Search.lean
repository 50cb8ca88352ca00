import Mathlib.Algebra.BigOperators.Fin
import OptimalMatching.Blossom.Search
import OptimalMatching.Proofs.Blossom.Contract
/-!
# The course of a search

`Search.Sound` is what holds between two steps of a search. Besides the shape of the tree it says
what the entries that have been treated have settled: the other end of the entry is in the same
blossom, or it has a parent; and if both ends are outer, they are in the same blossom unless the
entry is still pending at one of them.

Each step keeps this and lowers the work that is left (`Search.Sound.step`), so a search comes to
its end within the given bound (`searchFrom_ends`), with an exposed vertex at the end of a way, or
with an `Exhausted` tree.
-/

namespace OptimalMatching.Blossom

variable {n : Nat} {neighbors : Neighbors n} {mates : Mates n} {root : Fin n} {t t' : Tree n}

/-! ## The work that is left -/

/-- The steps that an outer vertex takes: one for each entry, and one to get to the next vertex. -/
def effort (neighbors : Neighbors n) (v : Fin n) : Nat := (neighbors.get v).length + 1

/-- The steps for the vertices that are in the queue or may still come into it. -/
def Tree.workload (neighbors : Neighbors n) (t : Tree n) : Nat :=
  (t.queue.map (effort neighbors)).sum + ∑ v with t.outer.get v ≠ true, effort neighbors v

/-- The steps that a search can still make. -/
def Search.work (neighbors : Neighbors n) (s : Search n) : Nat :=
  s.entries.length + s.tree.workload neighbors

/-- Vertices that become outer only move into the queue. -/
theorem Tree.Extends.workload_eq (ext : t.Extends mates t') :
    t'.workload neighbors = t.workload neighbors := by
  obtain ⟨added, hqueue, nodup, hadded⟩ := ext.queue
  have hsplit : (Finset.univ.filter fun v => t.outer.get v ≠ true) =
      added.toFinset ∪ Finset.univ.filter fun v => t'.outer.get v ≠ true := by
    ext v
    simp only [Finset.mem_filter, Finset.mem_univ, true_and, Finset.mem_union, List.mem_toFinset,
      hadded]
    have := @Extends.outer _ _ _ _ ext v
    tauto
  have hdisjoint : Disjoint added.toFinset (Finset.univ.filter fun v => t'.outer.get v ≠ true) := by
    rw [Finset.disjoint_left]
    intro v hv hv'
    simp only [Finset.mem_filter, Finset.mem_univ, true_and] at hv'
    exact hv' ((hadded v).1 (List.mem_toFinset.1 hv)).1
  have hsum : ∑ v ∈ added.toFinset, effort neighbors v = (added.map (effort neighbors)).sum :=
    List.sum_toFinset _ nodup
  rw [workload, workload, hqueue, hsplit, Finset.sum_union hdisjoint, hsum, List.map_append,
    List.sum_append]
  omega

theorem stepBound_eq (neighbors : Neighbors n) :
    stepBound neighbors = ∑ v, effort neighbors v + 1 := by
  simp [stepBound, effort, Table.toList_eq_map, Finset.sum_add_distrib, Fin.sum_univ_def,
    Function.comp_def]

theorem work_start_lt (neighbors : Neighbors n) (root : Fin n) :
    (Search.start neighbors root).work neighbors < stepBound neighbors := by
  have houter : (Finset.univ.filter fun v => (Tree.ofRoot root).outer.get v ≠ true) =
      Finset.univ.erase root := by
    ext v
    simp only [ne_eq, Tree.Alternating.get_outer_ofRoot, Finset.mem_filter, Finset.mem_univ,
      true_and, Finset.mem_erase, and_true]
  have hwork : (Search.start neighbors root).work neighbors = (neighbors.get root).length +
      (0 + ∑ v with (Tree.ofRoot root).outer.get v ≠ true, effort neighbors v) := rfl
  rw [hwork, houter, stepBound_eq, ← Finset.add_sum_erase _ _ (Finset.mem_univ root), effort]
  omega

/-! ## What holds between two steps -/

namespace Search

variable {s : Search n}

/-- The entry `w` of `v` is still to be treated. -/
def Pending (s : Search n) (v w : Fin n) : Prop :=
  v ∈ s.tree.queue ∨ v = s.vertex ∧ w ∈ s.entries

/-- What holds of a search between two steps. -/
structure Sound (neighbors : Neighbors n) (mates : Mates n) (root : Fin n) (s : Search n) :
    Prop where
  tree : s.tree.Alternating neighbors mates root
  vertex_outer : s.tree.outer.get s.vertex = true
  entries_sub : s.entries ⊆ neighbors.get s.vertex
  queue_outer : ∀ v ∈ s.tree.queue, s.tree.outer.get v = true
  /-- No exposed vertex has been reached. -/
  matched : ∀ {c}, s.tree.parent.get c ≠ none → mates.get c ≠ none
  /-- A neighbor of an outer vertex has been reached. -/
  reached : ∀ {v w}, s.tree.outer.get v = true → w ∈ neighbors.get v →
    s.tree.base.get v = s.tree.base.get w ∨ s.tree.parent.get w ≠ none ∨ s.Pending v w
  /-- Two outer neighbors are in the same blossom. -/
  joined : ∀ {v w}, s.tree.outer.get v = true → s.tree.outer.get w = true →
    w ∈ neighbors.get v →
    s.tree.base.get v = s.tree.base.get w ∨ s.Pending v w ∨ s.Pending w v

theorem sound_start (exposed : mates.get root = none) :
    (start neighbors root).Sound neighbors mates root := by
  have houter : ∀ {v : Fin n}, (Tree.ofRoot root).outer.get v = true → v = root :=
    Tree.Alternating.get_outer_ofRoot.1
  constructor
  case tree => exact .ofRoot exposed
  case vertex_outer => simp [start, Tree.ofRoot]
  case entries_sub => exact List.Subset.refl _
  case queue_outer => simp [start, Tree.ofRoot]
  case matched => simp [start, Tree.ofRoot]
  case reached =>
    intro v w hv hw
    obtain rfl := houter hv
    exact .inr (.inr (.inr ⟨rfl, hw⟩))
  case joined =>
    intro v w hv _ hw
    obtain rfl := houter hv
    exact .inr (.inl (.inr ⟨rfl, hw⟩))

theorem Sound.settle {v w : Fin n} {rest : List (Fin n)}
    (h : Sound neighbors mates root ⟨t, v, w :: rest⟩) (ext : t.Extends mates t')
    (tree : t'.Alternating neighbors mates root)
    (settled : t'.base.get v = t'.base.get w ∨
      t'.parent.get w ≠ none ∧ t'.outer.get w ≠ true) :
    Sound neighbors mates root ⟨t', v, rest⟩ := by
  obtain ⟨added, hqueue, -, hadded⟩ := ext.queue
  -- Only the entry `w` of `v` is taken off the list, and new outer vertices are queued.
  have hpending : ∀ {x y : Fin n}, Pending ⟨t, v, w :: rest⟩ x y →
      Pending ⟨t', v, rest⟩ x y ∨ x = v ∧ y = w := by
    rintro x y (hx | ⟨hx, hy⟩)
    · exact .inl (.inl (hqueue ▸ List.mem_append_left _ hx))
    · rcases List.mem_cons.1 hy with hy | hy
      · exact .inr ⟨hx, hy⟩
      · exact .inl (.inr ⟨hx, hy⟩)
  have hnew : ∀ {x : Fin n} (y : Fin n), t'.outer.get x = true → t.outer.get x ≠ true →
      Pending ⟨t', v, rest⟩ x y := fun _ hx hx' =>
    .inl (hqueue ▸ List.mem_append_right _ ((hadded _).2 ⟨hx, hx'⟩))
  constructor
  case tree => exact tree
  case vertex_outer => exact ext.outer h.vertex_outer
  case entries_sub => exact fun x hx => h.entries_sub (List.mem_cons_of_mem _ hx)
  case queue_outer =>
    intro x hx
    change x ∈ t'.queue at hx
    rw [hqueue] at hx
    rcases List.mem_append.1 hx with hx | hx
    · exact ext.outer (h.queue_outer x hx)
    · exact ((hadded x).1 hx).1
  case matched =>
    intro c hc
    exact (ext.fresh hc).elim h.matched id
  case reached =>
    intro x y hx hy
    by_cases hxo : t.outer.get x = true
    · rcases h.reached hxo hy with hb | hp | hp
      · exact .inl (ext.base hb)
      · exact .inr (.inl (ext.parent hp))
      · rcases hpending hp with hp | ⟨rfl, rfl⟩
        · exact .inr (.inr hp)
        · exact settled.imp_right fun hw => .inl hw.1
    · -- A vertex that has just become outer waits in the queue.
      exact .inr (.inr (hnew y hx hxo))
  case joined =>
    intro x y hx hy hxy
    by_cases hxo : t.outer.get x = true
    · by_cases hyo : t.outer.get y = true
      · rcases h.joined hxo hyo hxy with hb | hp | hp
        · exact .inl (ext.base hb)
        · rcases hpending hp with hp | ⟨rfl, rfl⟩
          · exact .inr (.inl hp)
          · exact .inl (settled.resolve_right fun hw => hw.2 hy)
        · rcases hpending hp with hp | ⟨rfl, rfl⟩
          · exact .inr (.inr hp)
          · exact .inl (settled.resolve_right fun hw => hw.2 hx).symm
      · exact .inr (.inr (hnew x hy hyo))
    · exact .inr (.inl (hnew y hx hxo))

end Search

/-- A tree from which an exposed vertex other than the root has been reached. -/
structure Reached (neighbors : Neighbors n) (mates : Mates n) (root : Fin n) (t : Tree n)
    (v : Fin n) : Prop where
  tree : t.Alternating neighbors mates root
  exposed : mates.get v = none
  ne_root : v ≠ root
  link : ∃ u, t.parent.get v = some u

/-- A tree that cannot grow: the neighbors of an outer vertex are in its blossom, or they have a
parent and a mate. -/
structure Exhausted (neighbors : Neighbors n) (mates : Mates n) (root : Fin n) (t : Tree n) :
    Prop where
  tree : t.Alternating neighbors mates root
  closed : ∀ {v w}, t.outer.get v = true → w ∈ neighbors.get v →
    t.base.get v = t.base.get w ∧ t.outer.get w = true ∨
      t.outer.get w ≠ true ∧ t.parent.get w ≠ none ∧ mates.get w ≠ none

/-- What a step leads to when all goes well, from a search with so much work left. -/
def Step.Good (neighbors : Neighbors n) (mates : Mates n) (root : Fin n) (work : Nat) :
    Step n → Prop
  | .next s => s.Sound neighbors mates root ∧ s.work neighbors < work
  | .contracted _ s => s.Sound neighbors mates root ∧ s.work neighbors < work
  | .found v t => Reached neighbors mates root t v
  | .exhausted t => Exhausted neighbors mates root t
  | .broken => False

namespace Search

variable {s : Search n}

theorem Sound.nextVertex (h : s.Sound neighbors mates root) (simple : neighbors.Simple)
    (done : s.entries = []) :
    (s.nextVertex neighbors).Good neighbors mates root (s.work neighbors) := by
  have hpending : ∀ {v w : Fin n}, s.Pending v w → v ∈ s.tree.queue := fun hp =>
    hp.resolve_right fun hp => by simp [done] at hp
  unfold Search.nextVertex
  split
  · next hqueue =>
    have hnot : ∀ {v w : Fin n}, ¬ s.Pending v w := fun hp => by
      simpa [hqueue] using hpending hp
    refine ⟨h.tree, fun {v w} hv hw => ?_⟩
    by_cases hwo : s.tree.outer.get w = true
    · exact .inl ⟨(h.joined hv hwo hw).resolve_right (not_or.2 ⟨hnot, hnot⟩), hwo⟩
    · rcases h.reached hv hw with hb | hp | hp
      · rw [h.tree.base_of_not_outer hwo] at hb
        exact absurd (hb ▸ h.tree.outer_base hv) hwo
      · exact .inr ⟨hwo, hp, h.matched hp⟩
      · exact absurd hp hnot
  · next v rest hqueue =>
    -- The entries of `v`, pending because `v` was in the queue, are now under way.
    have hpending' : ∀ {x y : Fin n}, y ∈ neighbors.get x → s.Pending x y →
        Pending ⟨{ s.tree with queue := rest }, v, neighbors.get v⟩ x y := by
      intro x y hy hp
      have hx := hpending hp
      rw [hqueue] at hx
      rcases List.mem_cons.1 hx with rfl | hx
      · exact .inr ⟨rfl, hy⟩
      · exact .inl hx
    have hv : v ∈ s.tree.queue := hqueue ▸ List.mem_cons_self
    refine ⟨⟨h.tree.withQueue rest, h.queue_outer v hv, List.Subset.refl _,
      fun x hx => h.queue_outer x (hqueue ▸ List.mem_cons_of_mem _ hx), h.matched,
      fun hx hy => ?_, fun hx hy hxy => ?_⟩, ?_⟩
    · exact (h.reached hx hy).imp_right (Or.imp_right (hpending' hy))
    · exact (h.joined hx hy hxy).imp_right
        (Or.imp (hpending' hxy) (hpending' (simple.symm hxy)))
    · simp only [work, Tree.workload, effort, done, hqueue, List.map_cons, List.sum_cons]
      simp only [List.length_nil]
      omega

theorem Sound.treat {v w : Fin n} {rest : List (Fin n)}
    (h : Sound neighbors mates root ⟨t, v, w :: rest⟩) (valid : mates.Valid neighbors)
    (simple : neighbors.Simple) : (Search.treat mates root ⟨t, v, rest⟩ w).Good neighbors mates root
      (work neighbors ⟨t, v, w :: rest⟩) := by
  have hv : t.outer.get v = true := h.vertex_outer
  have adj : w ∈ neighbors.get v := h.entries_sub List.mem_cons_self
  have hwork : ∀ {t' : Tree n}, t.Extends mates t' →
      work neighbors ⟨t', v, rest⟩ < work neighbors ⟨t, v, w :: rest⟩ := by
    intro t' ext
    simp only [work, ext.workload_eq, List.length_cons]
    omega
  unfold Search.treat
  dsimp only
  split_ifs with hskip houter
  · -- The entry is skipped: it is in the same blossom, or it is the mate that led to `v`.
    refine ⟨h.settle (.refl t mates) h.tree ?_, hwork (.refl t mates)⟩
    rcases hskip with hb | mate
    · exact .inl hb
    · by_cases hwo : t.outer.get w = true
      · exact .inl (h.tree.base_eq_of_mates hv hwo mate)
      · have hne : v ≠ root := by
          intro heq
          subst heq
          simp [h.tree.root_exposed] at mate
        obtain ⟨m, u, hm, hu⟩ := h.tree.link_of_outer hv hne
        obtain rfl := Option.some.inj (mate.symm.trans hm)
        exact .inr ⟨by simp [hu], hwo⟩
  · -- Two outer vertices close an odd cycle.
    obtain ⟨stem, t', ht', tree, ext, hb⟩ :=
      h.tree.contract valid simple hv ((h.tree.outer_iff w).2 houter) adj
    rw [ht']
    exact ⟨h.settle ext tree (.inl hb), hwork ext⟩
  · have hwo : t.outer.get w ≠ true := fun hwo => houter ((h.tree.outer_iff w).1 hwo)
    split
    · next u hu =>
      exact ⟨h.settle (.refl t mates) h.tree (.inr ⟨by simp [hu], hwo⟩), hwork (.refl t mates)⟩
    · next free =>
      split
      · next exposed =>
        -- An exposed vertex ends the search.
        refine ⟨h.tree.attach valid hv adj free exposed, exposed, ?_, v, ?_⟩
        · intro heq
          subst heq
          exact hwo h.tree.root_outer
        · simp [Tree.Alternating.get_parent_attach]
      · next m mate =>
        have ext := h.tree.extends_attach_enqueue (v := v) valid free mate
        refine ⟨h.settle ext (h.tree.attach_enqueue valid simple hv adj hwo free mate) ?_,
          hwork ext⟩
        refine .inr ⟨?_, fun hwo' => ?_⟩
        · show (t.attach v w).parent.get w ≠ none
          simp [Tree.Alternating.get_parent_attach]
        · rcases (Tree.Alternating.outer_attach_enqueue ..).1 hwo' with hwm | hwo'
          · exact valid.ne_self simple mate hwm
          · exact hwo hwo'

/-- **One step** of a search keeps what holds of it, or brings it to a good end. -/
theorem Sound.step (h : s.Sound neighbors mates root) (valid : mates.Valid neighbors)
    (simple : neighbors.Simple) :
    (s.step neighbors mates root).Good neighbors mates root (s.work neighbors) := by
  obtain ⟨t, v, entries⟩ := s
  cases entries with
  | nil => exact h.nextVertex simple rfl
  | cons w rest => exact h.treat valid simple

end Search

/-- What a search has found when all goes well: an exposed vertex, or that there is nothing left to
search. -/
def Finding.Good (neighbors : Neighbors n) (mates : Mates n) (root : Fin n) (f : Finding n) :
    Prop :=
  match f.last? with
  | some v => Reached neighbors mates root f.tree v
  | none => Exhausted neighbors mates root f.tree

/-- **A run** with enough steps comes to a good end. -/
theorem Search.Sound.run {s : Search n} (valid : mates.Valid neighbors) (simple : neighbors.Simple)
    {fuel : Nat} (h : s.Sound neighbors mates root) (enough : s.work neighbors < fuel) :
    ∃ f, s.run neighbors mates root fuel = some f ∧ f.Good neighbors mates root := by
  -- The work that is left decreases with every step.
  induction fuel generalizing s with
  | zero => omega
  | succ fuel ih =>
    have hstep := h.step valid simple
    unfold Search.run
    cases hs : s.step neighbors mates root with
    | next s' =>
      rw [hs] at hstep
      exact ih hstep.1 (by have := hstep.2; omega)
    | contracted c s' =>
      rw [hs] at hstep
      obtain ⟨f, hf, good⟩ := ih hstep.1 (by have := hstep.2; omega)
      exact ⟨{ f with contractions := c :: f.contractions }, by simp [hf], good⟩
    | found v tree =>
      rw [hs] at hstep
      exact ⟨_, rfl, hstep⟩
    | exhausted tree =>
      rw [hs] at hstep
      exact ⟨_, rfl, hstep⟩
    | broken =>
      rw [hs] at hstep
      exact hstep.elim

/-- **Every search comes to a good end.** -/
theorem searchFrom_ends (valid : mates.Valid neighbors) (simple : neighbors.Simple)
    (exposed : mates.get root = none) :
    ∃ f, searchFrom neighbors mates root = some f ∧ f.Good neighbors mates root :=
  (Search.sound_start exposed).run valid simple (work_start_lt neighbors root)

end OptimalMatching.Blossom
