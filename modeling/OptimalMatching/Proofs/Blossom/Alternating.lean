import OptimalMatching.Proofs.Blossom.Way
/-!
# The shape of a growing tree

`Tree.Alternating` is what holds of the tree of a search between two steps.

* A vertex is outer exactly when its links say so, and from each outer vertex a clear way leads to
  the root.
* Vertices that are not outer are outside of blossoms. A blossom consists of outer vertices; on the
  way up from a vertex of it one stays inside until its base, and leaves the base for a mate that is
  not outer.

The last section shows that a tree keeps this shape when it grows by an edge to a vertex that has no
parent yet. Contractions follow in `OptimalMatching.Proofs.Blossom.Contract`.
-/

namespace OptimalMatching.Blossom

variable {n : Nat} {neighbors : Neighbors n} {mates : Mates n} {root : Fin n} {t : Tree n}

namespace Tree

theorem isOuter_iff {v : Fin n} : t.isOuter mates root v = true ↔
    v = root ∨ ∃ m u, mates.get v = some m ∧ t.parent.get m = some u := by
  simp [isOuter, up?, Option.isSome_iff_exists, Option.bind_eq_some_iff]
  tauto

/-- The shape of the tree of a search from `root`. -/
structure Alternating (neighbors : Neighbors n) (mates : Mates n) (root : Fin n) (t : Tree n) :
    Prop where
  root_exposed : mates.get root = none
  /-- The links tell which vertices are outer. -/
  outer_iff : ∀ v, t.outer.get v = true ↔ t.isOuter mates root v = true
  parent_adjacent : ∀ {c v}, t.parent.get c = some v → c ∈ neighbors.get v
  parent_outer : ∀ {c v}, t.parent.get c = some v → t.outer.get v = true
  exists_way : ∀ {v}, t.outer.get v = true → ∃ l, Way t.parent mates v l ∧ Clear mates l
  base_base : ∀ v, t.base.get (t.base.get v) = t.base.get v
  outer_base : ∀ {v}, t.outer.get v = true → t.outer.get (t.base.get v) = true
  /-- Outside of the outer vertices there are no blossoms. -/
  base_of_not_outer : ∀ {v}, t.outer.get v ≠ true → t.base.get v = v
  /-- The way up from a vertex that is no base stays in its blossom. -/
  inside : ∀ {v}, t.outer.get v = true → t.base.get v ≠ v → ∃ m u, mates.get v = some m ∧
    t.parent.get m = some u ∧ t.base.get m = t.base.get v ∧ t.base.get u = t.base.get v
  /-- The way up from a base leaves its blossom. -/
  mate_of_base : ∀ {v m}, t.outer.get v = true → t.base.get v = v → mates.get v = some m →
    t.outer.get m ≠ true

/-- What a tree keeps when it grows: outer vertices stay outer, vertices of one blossom stay
together, and parents may change but do not vanish; new parents go to vertices with mates. Each
vertex that becomes outer is put into the queue once. -/
structure Extends (t : Tree n) (mates : Mates n) (t' : Tree n) : Prop where
  outer : ∀ {i}, t.outer.get i = true → t'.outer.get i = true
  base : ∀ {i j}, t.base.get i = t.base.get j → t'.base.get i = t'.base.get j
  parent : ∀ {c}, t.parent.get c ≠ none → t'.parent.get c ≠ none
  fresh : ∀ {c}, t'.parent.get c ≠ none → t.parent.get c ≠ none ∨ mates.get c ≠ none
  queue : ∃ added, t'.queue = t.queue ++ added ∧ added.Nodup ∧
    ∀ i, i ∈ added ↔ t'.outer.get i = true ∧ t.outer.get i ≠ true

theorem Extends.refl (t : Tree n) (mates : Mates n) : t.Extends mates t :=
  ⟨id, id, id, .inl, [], by simp⟩

namespace Alternating

variable {v w : Fin n} {l l' : List (Fin n)}

theorem root_outer (h : t.Alternating neighbors mates root) : t.outer.get root = true :=
  (h.outer_iff root).2 (isOuter_iff.2 (.inl rfl))

theorem eq_root (h : t.Alternating neighbors mates root) (outer : t.outer.get v = true)
    (exposed : mates.get v = none) : v = root := by
  rcases isOuter_iff.1 ((h.outer_iff v).1 outer) with rfl | ⟨m, u, hm, -⟩
  · rfl
  · simp [exposed] at hm

theorem link_of_outer (h : t.Alternating neighbors mates root) (outer : t.outer.get v = true)
    (hne : v ≠ root) : ∃ m u, mates.get v = some m ∧ t.parent.get m = some u :=
  (isOuter_iff.1 ((h.outer_iff v).1 outer)).resolve_left hne

theorem outer_of_link (h : t.Alternating neighbors mates root) {m u : Fin n}
    (mate : mates.get v = some m) (link : t.parent.get m = some u) : t.outer.get v = true :=
  (h.outer_iff v).2 (isOuter_iff.2 (.inr ⟨m, u, mate, link⟩))

theorem base_root (h : t.Alternating neighbors mates root) : t.base.get root = root := by
  by_contra hne
  obtain ⟨m, u, hm, -⟩ := h.inside h.root_outer hne
  simp [h.root_exposed] at hm

theorem base_eq_of_mates (h : t.Alternating neighbors mates root) (hv : t.outer.get v = true)
    (hw : t.outer.get w = true) (mate : mates.get v = some w) :
    t.base.get v = t.base.get w := by
  by_cases hbv : t.base.get v = v
  · exact absurd hw (h.mate_of_base hv hbv mate)
  · obtain ⟨m, -, hm, -, hb, -⟩ := h.inside hv hbv
    obtain rfl := Option.some.inj (mate.symm.trans hm)
    exact hb.symm

/-! ## Ways and bases -/

theorem outer_of_mem_way (h : t.Alternating neighbors mates root) (hv : t.outer.get v = true)
    (way : Way t.parent mates v l) (hw : w ∈ l) : t.outer.get w = true := by
  rcases way.isParent_of_mem hw with rfl | ⟨m, hm⟩
  · exact hv
  · exact h.parent_outer hm

/-- The way from a vertex goes through its blossom to its base, without passing another base, and
on from there. -/
theorem way_split (h : t.Alternating neighbors mates root) (hv : t.outer.get v = true)
    (way : Way t.parent mates v l) : ∃ before l', l = before ++ l' ∧
      Way t.parent mates (t.base.get v) l' ∧ ∀ c ∈ before, t.base.get c ≠ c := by
  induction way with
  | top exposed =>
    obtain rfl := h.eq_root hv exposed
    exact ⟨[], _, rfl, by rw [h.base_root]; exact .top exposed, by simp⟩
  | @up v m u l mate link way ih =>
    by_cases hb : t.base.get v = v
    · exact ⟨[], _, rfl, by rw [hb]; exact .up mate link way, by simp⟩
    · obtain ⟨m', u', hm, hu, -, hbu⟩ := h.inside hv hb
      obtain rfl := Option.some.inj (mate.symm.trans hm)
      obtain rfl := Option.some.inj (link.symm.trans hu)
      obtain ⟨before, l', rfl, way', hbefore⟩ := ih (h.parent_outer link)
      refine ⟨v :: before, l', rfl, hbu ▸ way', ?_⟩
      simpa [hb] using hbefore

theorem base_mem_way (h : t.Alternating neighbors mates root) (hv : t.outer.get v = true)
    (way : Way t.parent mates v l) : t.base.get v ∈ l := by
  obtain ⟨before, l', rfl, way', -⟩ := h.way_split hv way
  exact List.mem_append_right _ way'.mem_self

theorem mem_way_base (h : t.Alternating neighbors mates root) (hv : t.outer.get v = true)
    (way : Way t.parent mates v l) (way' : Way t.parent mates (t.base.get v) l') (hw : w ∈ l)
    (hbw : t.base.get w = w) : w ∈ l' := by
  obtain ⟨before, l'', rfl, way'', hbefore⟩ := h.way_split hv way
  obtain rfl := way'.unique way''
  exact (List.mem_append.1 hw).resolve_left fun hw => hbefore w hw hbw

/-- A vertex on the way from `v` has its base on the way from the base of `v`. -/
theorem base_mem_way_base (h : t.Alternating neighbors mates root) (hv : t.outer.get v = true)
    (way : Way t.parent mates v l) (way' : Way t.parent mates (t.base.get v) l') (hw : w ∈ l) :
    t.base.get w ∈ l' := by
  obtain ⟨lw, wayw, -⟩ := h.exists_way (h.outer_of_mem_way hv way hw)
  have hb : t.base.get w ∈ l :=
    way.subset hw wayw (h.base_mem_way (h.outer_of_mem_way hv way hw) wayw)
  exact h.mem_way_base hv way way' hb (h.base_base w)

/-! ## Growing -/

/-- Outer vertices do not have an inner vertex on their way or as a mate on it. -/
theorem parent_ne_none_of_mem_way (h : t.Alternating neighbors mates root) {m : Fin n}
    (hv : t.outer.get v = true) (way : Way t.parent mates v l) (hw : w ∈ l)
    (mate : mates.get w = some m) : t.parent.get m ≠ none := by
  have hne : w ≠ root := by
    intro heq
    subst heq
    simp [h.root_exposed] at mate
  obtain ⟨m', u, hm, hu⟩ := h.link_of_outer (h.outer_of_mem_way hv way hw) hne
  obtain rfl := Option.some.inj (mate.symm.trans hm)
  simp [hu]

/-- The way of an outer vertex stays as it is when a vertex without a parent gets one. -/
theorem way_attach (h : t.Alternating neighbors mates root) {x : Fin n}
    (hx : t.outer.get x = true) (way : Way t.parent mates x l) (free : t.parent.get w = none) :
    Way (t.attach v w).parent mates x l := by
  refine way.congr fun a ha m hm => ?_
  have hmw : w ≠ m := by
    intro heq
    subst heq
    exact h.parent_ne_none_of_mem_way hx way ha hm free
  simp [attach, Table.get_put, hmw]

theorem get_parent_attach (t : Tree n) (v w c : Fin n) :
    (t.attach v w).parent.get c = if w = c then some v else t.parent.get c :=
  Table.get_put ..

theorem link_of_attach (t : Tree n) (v w : Fin n) {c u : Fin n}
    (hu : (t.attach v w).parent.get c = some u) :
    (c = w ∧ u = v) ∨ t.parent.get c = some u := by
  rw [get_parent_attach] at hu
  split_ifs at hu with hc
  · exact .inl ⟨hc.symm, (Option.some.inj hu).symm⟩
  · exact .inr hu

theorem parent_attach_of_mate (t : Tree n) (v : Fin n) (valid : mates.Valid neighbors) {x m : Fin n}
    (mate : mates.get x = some m) (hx : mates.get w ≠ some x) :
    (t.attach v w).parent.get m = t.parent.get m := by
  have hwm : w ≠ m := by
    intro heq
    subst heq
    exact hx (valid.symm mate)
  rw [get_parent_attach, if_neg hwm]

/-- An exposed vertex that gets a parent does not change the shape of the tree. -/
theorem attach (h : t.Alternating neighbors mates root) (valid : mates.Valid neighbors)
    (hv : t.outer.get v = true) (adj : w ∈ neighbors.get v) (free : t.parent.get w = none)
    (exposed : mates.get w = none) : (t.attach v w).Alternating neighbors mates root := by
  -- No link goes through `w`, because `w` is nobody's mate.
  have hlink : ∀ {x m : Fin n}, mates.get x = some m →
      (t.attach v w).parent.get m = t.parent.get m := fun hm =>
    parent_attach_of_mate t v valid hm (by simp [exposed])
  constructor
  case root_exposed => exact h.root_exposed
  case outer_iff =>
    intro x
    refine (h.outer_iff x).trans ?_
    rw [isOuter_iff, isOuter_iff]
    refine or_congr_right (exists_congr fun m => exists_congr fun u => and_congr_right fun hm => ?_)
    rw [hlink hm]
  case parent_adjacent =>
    intro c u hu
    rcases link_of_attach t v w hu with ⟨rfl, rfl⟩ | hu
    · exact adj
    · exact h.parent_adjacent hu
  case parent_outer =>
    intro c u hu
    rcases link_of_attach t v w hu with ⟨-, rfl⟩ | hu
    · exact hv
    · exact h.parent_outer hu
  case exists_way =>
    intro x hx
    obtain ⟨l, way, clear⟩ := h.exists_way hx
    exact ⟨l, h.way_attach hx way free, clear⟩
  case base_base => exact h.base_base
  case outer_base => exact h.outer_base
  case base_of_not_outer => exact h.base_of_not_outer
  case inside =>
    intro x hx hb
    obtain ⟨m, u, hm, hu, hbm, hbu⟩ := h.inside hx hb
    exact ⟨m, u, hm, (hlink hm).trans hu, hbm, hbu⟩
  case mate_of_base => exact h.mate_of_base

theorem get_outer_enqueue (t : Tree n) (m x : Fin n) :
    (t.enqueue m).outer.get x = if m = x then true else t.outer.get x :=
  Table.get_put ..

theorem mate_not_outer (h : t.Alternating neighbors mates root) (valid : mates.Valid neighbors)
    {m : Fin n} (free : t.parent.get w = none) (mate : mates.get w = some m) :
    t.outer.get m ≠ true := by
  intro hm
  have mate' := valid.symm mate
  rcases isOuter_iff.1 ((h.outer_iff m).1 hm) with rfl | ⟨w', u, hw', hu⟩
  · simp [h.root_exposed] at mate'
  · obtain rfl := Option.some.inj (mate'.symm.trans hw')
    simp [free] at hu

theorem outer_attach_enqueue (t : Tree n) (v w m x : Fin n) :
    ((t.attach v w).enqueue m).outer.get x = true ↔ x = m ∨ t.outer.get x = true := by
  rw [get_outer_enqueue]
  split_ifs with hx
  · simp [hx]
  · simp [Ne.symm hx, Tree.attach]

theorem extends_attach_enqueue (h : t.Alternating neighbors mates root)
    (valid : mates.Valid neighbors) {m : Fin n} (free : t.parent.get w = none)
    (mate : mates.get w = some m) : t.Extends mates ((t.attach v w).enqueue m) where
  outer hi := (outer_attach_enqueue ..).2 (.inr hi)
  base := id
  parent {c} hc := by
    show (t.attach v w).parent.get c ≠ none
    rw [get_parent_attach]
    split_ifs <;> simp_all
  fresh {c} hc := by
    change (t.attach v w).parent.get c ≠ none at hc
    rw [get_parent_attach] at hc
    split_ifs at hc with hwc
    · exact .inr (by simp [← hwc, mate])
    · exact .inl hc
  queue := by
    refine ⟨[m], rfl, by simp, fun i => ?_⟩
    rw [outer_attach_enqueue, List.mem_singleton]
    constructor
    · intro heq
      subst heq
      exact ⟨.inl rfl, h.mate_not_outer valid free mate⟩
    · rintro ⟨hi, hi'⟩
      exact hi.resolve_right hi'

/-- A vertex that gets a parent makes its mate outer. -/
theorem attach_enqueue (h : t.Alternating neighbors mates root) (valid : mates.Valid neighbors)
    (simple : neighbors.Simple) {m : Fin n} (hv : t.outer.get v = true)
    (adj : w ∈ neighbors.get v) (hw : t.outer.get w ≠ true) (free : t.parent.get w = none)
    (mate : mates.get w = some m) :
    ((t.attach v w).enqueue m).Alternating neighbors mates root := by
  have mate' : mates.get m = some w := valid.symm mate
  have hm : t.outer.get m ≠ true := h.mate_not_outer valid free mate
  have houter := fun {x : Fin n} => outer_attach_enqueue t v w m x
  -- Only the link from `m` goes through `w`.
  have hlink : ∀ {x m' : Fin n}, x ≠ m → mates.get x = some m' →
      (t.attach v w).parent.get m' = t.parent.get m' := fun hx hm' =>
    parent_attach_of_mate t v valid hm' fun hw => hx (Option.some.inj (hw.symm.trans mate))
  have hparent : (t.attach v w).parent.get w = some v := (get_parent_attach ..).trans (if_pos rfl)
  constructor
  case root_exposed => exact h.root_exposed
  case outer_iff =>
    intro x
    rw [houter, isOuter_iff]
    by_cases hx : x = m
    · subst hx
      exact ⟨fun _ => .inr ⟨w, v, mate', hparent⟩, fun _ => .inl rfl⟩
    · rw [h.outer_iff, isOuter_iff]
      simp only [hx, false_or]
      refine or_congr_right (exists_congr fun m' => exists_congr fun u =>
        and_congr_right fun hm' => ?_)
      exact Eq.congr_left (hlink hx hm').symm
  case parent_adjacent =>
    intro c u hu
    rcases link_of_attach t v w hu with ⟨rfl, rfl⟩ | hu
    · exact adj
    · exact h.parent_adjacent hu
  case parent_outer =>
    intro c u hu
    refine houter.2 (.inr ?_)
    rcases link_of_attach t v w hu with ⟨-, rfl⟩ | hu
    · exact hv
    · exact h.parent_outer hu
  case exists_way =>
    intro x hx
    rcases houter.1 hx with rfl | hx
    · obtain ⟨l, way, clear⟩ := h.exists_way hv
      refine ⟨x :: l, .up mate' hparent (h.way_attach hv way free), ?_⟩
      exact clear.cons mate' (fun _ _ => valid.symm)
        (fun hx => hm (h.outer_of_mem_way hv way hx))
        (fun hx => hw (h.outer_of_mem_way hv way hx)) (valid.ne_self simple mate')
    · obtain ⟨l, way, clear⟩ := h.exists_way hx
      exact ⟨l, h.way_attach hx way free, clear⟩
  case base_base => exact h.base_base
  case outer_base =>
    intro x hx
    rcases houter.1 hx with rfl | hx
    · exact houter.2 (.inl (h.base_of_not_outer hm))
    · exact houter.2 (.inr (h.outer_base hx))
  case base_of_not_outer =>
    intro x hx
    exact h.base_of_not_outer fun hx' => hx (houter.2 (.inr hx'))
  case inside =>
    intro x hx hb
    rcases houter.1 hx with rfl | hx
    · exact absurd (h.base_of_not_outer hm) hb
    · obtain ⟨m', u, hm', hu, hbm, hbu⟩ := h.inside hx hb
      have hxm : x ≠ m := fun hxm => hm (hxm ▸ hx)
      exact ⟨m', u, hm', (hlink hxm hm').trans hu, hbm, hbu⟩
  case mate_of_base =>
    intro x m' hx hb hm' hout
    rcases houter.1 hx with rfl | hxo
    · obtain rfl := Option.some.inj (mate'.symm.trans hm')
      rcases houter.1 hout with rfl | hout
      · exact valid.ne_self simple mate' rfl
      · exact hw hout
    · rcases houter.1 hout with rfl | hout
      · exact hw (valid.injective mate hm' ▸ hxo)
      · exact h.mate_of_base hxo hb hm' hout

theorem get_outer_ofRoot {v : Fin n} : (Tree.ofRoot root).outer.get v = true ↔ v = root := by
  rw [Tree.ofRoot, Table.get_put_true, Table.get_replicate, or_iff_left Bool.false_ne_true]
  exact eq_comm

theorem ofRoot (exposed : mates.get root = none) :
    (Tree.ofRoot root).Alternating neighbors mates root := by
  constructor
  case root_exposed => exact exposed
  case outer_iff =>
    intro x
    rw [isOuter_iff, get_outer_ofRoot]
    refine (or_iff_left ?_).symm
    rintro ⟨m, u, -, hu⟩
    simp [Tree.ofRoot] at hu
  case parent_adjacent =>
    intro c u hu
    simp [Tree.ofRoot] at hu
  case parent_outer =>
    intro c u hu
    simp [Tree.ofRoot] at hu
  case exists_way =>
    intro x hx
    obtain rfl := get_outer_ofRoot.1 hx
    exact ⟨[x], .top exposed, .singleton (by simp [exposed])⟩
  case base_base => simp [Tree.ofRoot]
  case outer_base =>
    intro x hx
    simpa [Tree.ofRoot] using hx
  case base_of_not_outer => simp [Tree.ofRoot]
  case inside =>
    intro x hx hb
    exact absurd (by simp [Tree.ofRoot]) hb
  case mate_of_base =>
    intro x m hx _ hm
    obtain rfl := get_outer_ofRoot.1 hx
    simp [exposed] at hm

theorem withQueue (h : t.Alternating neighbors mates root) (queue : List (Fin n)) :
    Tree.Alternating neighbors mates root { t with queue := queue } :=
  ⟨h.root_exposed, h.outer_iff, h.parent_adjacent, h.parent_outer, h.exists_way, h.base_base,
    h.outer_base, h.base_of_not_outer, h.inside, h.mate_of_base⟩

end Alternating

end Tree

end OptimalMatching.Blossom
