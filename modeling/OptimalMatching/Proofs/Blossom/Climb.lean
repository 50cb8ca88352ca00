import OptimalMatching.Proofs.Blossom.Visited
/-!
# Climbing to the root

From an outer vertex one goes to its mate, from there to the parent of the mate, and so on, until
the root is reached. `Climb` lists all vertices that are met; `Way` lists every other one of them.

**The climb is a path.** Behind the first vertex, it is the trace of the mate of that vertex. So it
repeats no vertex, and its edges are inside and outside the matching by turns.

**The climb leaves a blossom through the base.** The base of each vertex on the climb is on the
climb, and at or behind the vertex. So the climb stays in the blossom in which it begins until it
comes to the base, which it leaves for a mate outside; and it cannot come back, because it would
come to the base a second time.

Both hold at every point of a search, however often the links that a climb uses have been
redirected.
-/

namespace OptimalMatching.Blossom

variable {n : Nat} {neighbors : Neighbors n} {mates : Mates n} {root : Fin n} {t : Tree n}
  {s : Search n} {parent : Table (Option (Fin n)) n} {v m : Fin n} {l : List (Fin n)}

/-- The vertices that are met on the way up from a vertex to the root, the mates in between
included. -/
inductive Climb (parent : Table (Option (Fin n)) n) (mates : Mates n) (root : Fin n) :
    Fin n → List (Fin n) → Prop where
  | top : Climb parent mates root root [root]
  | up {v m u : Fin n} {l : List (Fin n)} (mate : mates.get v = some m)
      (link : parent.get m = some u) (climb : Climb parent mates root u l) :
      Climb parent mates root v (v :: m :: l)

theorem Climb.mem_self (climb : Climb parent mates root v l) : v ∈ l := by
  cases climb <;> exact List.mem_cons_self

/-! ## The climb is a path -/

/-- The climb from a vertex with a mate goes on along the trace of the mate. -/
theorem Trace.climb (trace : Trace parent mates m l) (ends : l.getLast? = some root)
    (mate : mates.get v = some m) : Climb parent mates root v (v :: l) := by
  induction trace generalizing v with
  | last link exposed =>
    obtain rfl := Option.some.inj ends
    exact .up mate link .top
  | @step m p u l link mate' trace ih =>
    obtain ⟨rest, rfl⟩ : ∃ rest, l = u :: rest := by
      cases trace <;> exact ⟨_, rfl⟩
    exact .up mate link (ih (by simpa using ends) mate')

namespace Tree.Alternating

/-- From an outer vertex one climbs to the root along a simple path whose edges are inside and
outside the matching by turns. -/
theorem exists_climb (h : t.Alternating neighbors mates root) (valid : mates.Valid neighbors)
    (simple : neighbors.Simple) (hv : t.outer.get v = true) :
    ∃ l, Climb t.parent mates root v l ∧ l.getLast? = some root ∧ l.Nodup ∧
      Alternates neighbors mates true l := by
  obtain ⟨l, way, clear⟩ := h.exists_way hv
  cases way with
  | top exposed =>
    obtain rfl := h.eq_root hv exposed
    exact ⟨[v], .top, rfl, by simp, trivial⟩
  | @up _ m u l mate link way =>
    have hvl : v ∉ l := (List.nodup_cons.1 clear.1).1
    have hml : m ∉ l := fun hm =>
      clear.2 v List.mem_cons_self m (List.mem_cons_of_mem _ hm) mate
    -- Above the matched edge from `v` to `m`, the climb is the trace of `m`.
    have hmate : ∀ a ∈ l, mates.get m ≠ some a := fun a ha hma =>
      hvl (Option.some.inj ((valid.symm mate).symm.trans hma) ▸ ha)
    obtain ⟨path, trace, hhead, hlast, nodup, alternates, hpath⟩ := h.exists_trace valid simple
      link way (clear.sublist (List.sublist_cons_self _ _)) hml hmate
    obtain ⟨rest, rfl⟩ : ∃ rest, path = m :: rest := by
      cases trace <;> exact ⟨_, rfl⟩
    refine ⟨v :: m :: rest, trace.climb hlast mate, by simpa using hlast,
      List.nodup_cons.2 ⟨fun hmem => ?_, nodup⟩, valid.adjacent mate, by simp [mate], alternates⟩
    rcases hpath v hmem with hvm | hvl' | ⟨a, ha, hav⟩
    · exact valid.ne_self simple mate hvm
    · exact hvl hvl'
    · exact hml (Option.some.inj ((valid.symm hav).symm.trans mate) ▸ ha)

/-! ## The climb leaves a blossom through the base -/

theorem base_mem_climb (h : t.Alternating neighbors mates root)
    (climb : Climb t.parent mates root v l) (hv : t.outer.get v = true) {c : Fin n} (hc : c ∈ l) :
    t.base.get c ∈ l := by
  induction climb generalizing c with
  | top =>
    obtain rfl := List.mem_singleton.1 hc
    rwa [h.base_root]
  | @up v m u l mate link climb ih =>
    have hl : ∀ {c}, c ∈ l → t.base.get c ∈ v :: m :: l := fun hc =>
      List.mem_cons_of_mem _ (List.mem_cons_of_mem _ (ih (h.parent_outer link) hc))
    have hbv : t.base.get v ∈ v :: m :: l := by
      by_cases hb : t.base.get v = v
      · simp [hb]
      · -- Within the blossom the next vertex of the climb has the same base.
        obtain ⟨m', u', hm, hu, -, hbu⟩ := h.inside hv hb
        obtain rfl := Option.some.inj (mate.symm.trans hm)
        obtain rfl := Option.some.inj (link.symm.trans hu)
        exact hbu ▸ hl climb.mem_self
    rcases List.mem_cons.1 hc with rfl | hc
    · exact hbv
    · rcases List.mem_cons.1 hc with rfl | hc
      · by_cases hmo : t.outer.get c = true
        · exact h.base_eq_of_mates hv hmo mate ▸ hbv
        · simp [h.base_of_not_outer hmo]
      · exact hl hc

end Tree.Alternating

/-- Where a climb passes the base `b` of the blossom in which it begins: it has stayed in the
blossom until then, it ends there or goes on to the mate of the base, and it does not come back. -/
structure Tree.Exit (t : Tree n) (mates : Mates n) (root b : Fin n)
    (inside outside : List (Fin n)) : Prop where
  inside : ∀ c ∈ inside, t.base.get c = b
  goes_on : b = root ∧ outside = [] ∨ ∃ m rest, outside = m :: rest ∧ mates.get b = some m
  outside : ∀ c ∈ outside, t.base.get c ≠ b

namespace Tree.Alternating

/-- A climb leaves the blossom in which it begins through the base. -/
theorem exists_exit (h : t.Alternating neighbors mates root) (valid : mates.Valid neighbors)
    (simple : neighbors.Simple) (climb : Climb t.parent mates root v l) (nodup : l.Nodup)
    (hv : t.outer.get v = true) : ∃ inside outside, l = inside ++ t.base.get v :: outside ∧
      t.Exit mates root (t.base.get v) inside outside := by
  induction climb with
  | top =>
    rw [h.base_root]
    exact ⟨[], [], rfl, by simp, .inl ⟨rfl, rfl⟩, by simp⟩
  | @up v m u l mate link climb ih =>
    obtain ⟨hvml, hml⟩ := List.nodup_cons.1 nodup
    -- The climb is at the base, or the next two vertices are in the blossom, too.
    by_cases hb : t.base.get v = v
    · rw [hb]
      refine ⟨[], m :: l, rfl, by simp, .inr ⟨m, l, rfl, mate⟩, fun c hc heq => ?_⟩
      rcases List.mem_cons.1 hc with rfl | hc
      · exact valid.ne_self simple mate
          (heq.symm.trans (h.base_of_not_outer (h.mate_of_base hv hb mate)))
      · -- Otherwise the climb would come to `v` again.
        have hbc := h.base_mem_climb climb (h.parent_outer link) hc
        exact hvml (List.mem_cons_of_mem _ (heq ▸ hbc))
    · obtain ⟨m', u', hm, hu, hbm, hbu⟩ := h.inside hv hb
      obtain rfl := Option.some.inj (mate.symm.trans hm)
      obtain rfl := Option.some.inj (link.symm.trans hu)
      obtain ⟨inside, outside, hl, exit⟩ := ih (List.nodup_cons.1 hml).2 (h.parent_outer link)
      rw [hbu] at hl exit
      refine ⟨v :: m :: inside, outside, by rw [hl]; rfl, fun c hc => ?_, exit.goes_on,
        exit.outside⟩
      rcases List.mem_cons.1 hc with rfl | hc
      · rfl
      · rcases List.mem_cons.1 hc with rfl | hc
        · exact hbm
        · exact exit.inside c hc

end Tree.Alternating

/-- **Climbing to the root.** At every point of a search from an exposed vertex, one comes from each
outer vertex to the root by going to the mate and to the parent by turns. On the way no vertex is
repeated, all edges are edges of the graph, and they are inside and outside the matching by turns,
beginning inside. The vertices up to the base of the first one are in its blossom; there the climb
ends or leaves the blossom along the edge of the matching, and it does not come back. -/
theorem climb_at_every_point (simple : neighbors.Simple) (valid : mates.Valid neighbors)
    (exposed : mates.get root = none) (visits : s.Visits neighbors mates root)
    (hv : s.tree.outer.get v = true) : ∃ l, Climb s.tree.parent mates root v l ∧
      l.getLast? = some root ∧ l.Nodup ∧ Alternates neighbors mates true l ∧
        ∃ inside outside, l = inside ++ s.tree.base.get v :: outside ∧
          s.tree.Exit mates root (s.tree.base.get v) inside outside := by
  have h := (visits.sound valid simple exposed).tree
  obtain ⟨l, climb, ends, nodup, alternates⟩ := h.exists_climb valid simple hv
  exact ⟨l, climb, ends, nodup, alternates, h.exists_exit valid simple climb nodup hv⟩

theorem climb_at_every_point_kite : kite.Simple ∧ kitePairs.Valid kite ∧ kitePairs.get 0 = none ∧
    ∃ s : Search 6, s.Visits kite kitePairs 0 ∧ s.tree.outer.get 3 = true ∧
      s.tree.base.get 3 = 2 ∧ ∃ l, Climb s.tree.parent kitePairs 0 3 l ∧ l.getLast? = some 0 ∧
        l.Nodup ∧ Alternates kite kitePairs true l ∧ ∃ inside outside,
          l = inside ++ 2 :: outside ∧ s.tree.Exit kitePairs 0 2 inside outside := by
  have simple : kite.Simple := ⟨by decide, by decide⟩
  have valid : kitePairs.Valid kite := ⟨by decide, by decide⟩
  obtain ⟨s, s', c, visits, hstep, hbase, hblossom⟩ := exists_contraction_kite
  have visits' := visits.contracted hstep
  have hmem : 3 ∈ s'.tree.blossom 2 := by simp [hblossom]
  have houter : s'.tree.outer.get 3 = true :=
    (visits'.sound valid simple (by decide)).tree.outer_of_one_lt_card (by simp [hblossom]) hmem
  have hclimb := climb_at_every_point simple valid (by decide) visits' houter
  rw [Tree.mem_blossom.1 hmem] at hclimb
  exact ⟨simple, valid, by decide, s', visits', houter, Tree.mem_blossom.1 hmem, hclimb⟩

end OptimalMatching.Blossom
