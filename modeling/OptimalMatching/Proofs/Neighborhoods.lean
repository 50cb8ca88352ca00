import Mathlib.Data.List.Nodup
import OptimalMatching.Neighborhoods
import OptimalMatching.Proofs.Bags
import OptimalMatching.Proofs.Graph.Neighbors
/-!
# A cache of neighborhoods keeps up with its graph

The neighbors of a vertex are read off the edges that touch it (`Graph.around`). A cache is faithful
to a graph when every neighborhood in it holds these neighbors, and in an undirected graph lists
them in the same order (`Neighborhoods.Faithful`).

**One edge more.** The neighbors of its ends get one more at the end. A neighborhood that is cached
gets it by hand; one that is not is built now, from a graph that has the edge already, and does not
get it twice (`edgeAdded_spec`).

**One edge less.** In a directed graph a neighbor that goes may be held twice, and the bag and the
list may drop it in different places: they hold the same, but in another order. In an undirected
graph each neighbor is there once (`nodup_around`), and the order stays.
-/

namespace OptimalMatching

namespace Graph

variable {g g' : Graph} {e f : Edge} {v : Vertex} {w : Weight}

/-- The neighbors of a vertex, one for each edge that touches it. -/
def around (g : Graph) (v : Vertex) : List Vertex :=
  (g.edgeList.filter fun e => e.touches v).map fun e => e.across v

theorem around_congr (h : g'.edgeList = g.edgeList) : g'.around v = g.around v := by
  unfold around
  rw [h]

theorem mem_around (he : e ∈ g.edgeList) (hv : e.touches v = true) : e.across v ∈ g.around v :=
  List.mem_map_of_mem (List.mem_filter.2 ⟨he, hv⟩)

theorem neighborList_eq_error (h : g.WellFormed) (hv : v ∉ g.vertices) :
    g.neighborList v = .error (.absent v) := by
  unfold neighborList
  rw [h.incident_eq_error hv]
  rfl

/-! ## One edge more -/

theorem around_addEdge (h : g.WellFormed) (fits : (Change.addEdge e w).Fits g) (v : Vertex) :
    (g.apply (.addEdge e w)).around v =
      if e.touches v then g.around v ++ [e.across v] else g.around v := by
  unfold around
  rw [edgeList_addEdge (h.notMem_of_fits fits), List.filter_append, List.map_append]
  split_ifs with hv <;> simp [hv]

/-! ## One edge less -/

theorem around_removeEdge (g : Graph) (e : Edge) (v : Vertex) :
    (g.apply (.removeEdge e)).around v =
      ((g.edgeList.filter fun f => f.touches v).filter (· ≠ e)).map fun f => f.across v := by
  unfold around
  rw [edgeList_removeEdge, List.filter_comm]

theorem around_removeEdge_of_not_touches (hv : ¬ e.touches v = true) :
    (g.apply (.removeEdge e)).around v = g.around v := by
  rw [around_removeEdge, List.filter_eq_self.2]
  · rfl
  · intro f hf
    rw [decide_eq_true_eq]
    rintro rfl
    exact hv (List.mem_filter.1 hf).2

/-- The ends of a removed edge lose a neighbor. -/
theorem around_removeEdge_perm (he : e ∈ g.edgeList) (hv : e.touches v = true) :
    ((g.around v).erase (e.across v)).Perm ((g.apply (.removeEdge e)).around v) := by
  have hmem : e ∈ g.edgeList.filter fun f => f.touches v := List.mem_filter.2 ⟨he, hv⟩
  have hperm := ((List.perm_cons_erase hmem).map fun f => f.across v).erase (e.across v)
  rw [List.map_cons, List.erase_cons_head] at hperm
  rw [around_removeEdge, filter_ne_eq_erase ((WellFormed.nodup_edgeList g).filter _)]
  exact hperm

/-- In an undirected graph no vertex is a neighbor twice. -/
theorem nodup_around (h : g.WellFormed) (undirected : g.directed = false) (v : Vertex) :
    (g.around v).Nodup := by
  refine List.Nodup.map_on ?_ ((WellFormed.nodup_edgeList g).filter _)
  intro f hf e he heq
  obtain ⟨he, hev⟩ := List.mem_filter.1 he
  obtain ⟨hf, hfv⟩ := List.mem_filter.1 hf
  exact h.eq_of_across he hf (leads_of_touches undirected hev) (leads_of_touches undirected hfv) heq

theorem around_removeEdge_of_undirected (h : g.WellFormed) (undirected : g.directed = false)
    (he : e ∈ g.edgeList) (hv : e.touches v = true) :
    (g.apply (.removeEdge e)).around v = (g.around v).filter (· ≠ e.across v) := by
  rw [around_removeEdge]
  unfold around
  rw [List.filter_map]
  refine congrArg (List.map _) (List.filter_congr fun f hf => ?_)
  obtain ⟨hf, hfv⟩ := List.mem_filter.1 hf
  have hiff : f = e ↔ f.across v = e.across v :=
    ⟨fun heq => heq ▸ rfl, h.eq_of_across he hf (leads_of_touches undirected hv)
      (leads_of_touches undirected hfv)⟩
  simp [hiff]

end Graph

/-! ## One neighborhood -/

/-- A bag holds the neighbors of a vertex of a graph, in their order if the graph is undirected. -/
structure Bags.Mirrors (B : Bags) (bag : B.Bag) (g : Graph) (v : Vertex) : Prop where
  mem : v ∈ g.vertices
  holds : B.Holds bag (g.around v)
  inOrder : g.directed = false → B.toList bag = g.around v

namespace Bags.Mirrors

variable {B : Bags} {bag : B.Bag} {g g' : Graph} {e : Edge} {v : Vertex} {w : Weight}

theorem ofList (lawful : B.Lawful) (h : g.WellFormed) (hv : v ∈ g.vertices) :
    B.Mirrors (B.ofList (g.around v)) g v where
  mem := hv
  holds := .ofList lawful _
  inOrder undirected := toList_ofList lawful (Graph.nodup_around h undirected v)

/-- A change that leaves a vertex and its neighbors leaves its neighborhood. -/
theorem of_around_eq (hbag : B.Mirrors bag g v) (directed : g'.directed = g.directed)
    (hv : v ∈ g'.vertices) (haround : g'.around v = g.around v) : B.Mirrors bag g' v where
  mem := hv
  holds := by
    rw [haround]
    exact hbag.holds
  inOrder undirected := by
    rw [haround]
    exact hbag.inOrder (directed ▸ undirected)

theorem addEdge (lawful : B.Lawful) (hbag : B.Mirrors bag g v) (h : g.WellFormed)
    (fits : (Change.addEdge e w).Fits g) (hv : e.touches v = true) :
    B.Mirrors (B.add bag (e.across v)) (g.apply (.addEdge e w)) v := by
  have haround := Graph.around_addEdge h fits v
  rw [if_pos hv] at haround
  constructor
  case mem =>
    rw [Graph.vertices_addEdge]
    exact hbag.mem
  case holds =>
    rw [haround]
    exact hbag.holds.add lawful _
  case inOrder =>
    intro undirected
    have undirected' : g.directed = false := undirected
    -- the neighbor is new, since no two edges lead to it
    have hnew := Graph.nodup_around (h.addEdge fits) undirected v
    rw [haround, List.nodup_append] at hnew
    have habsent : B.count bag (e.across v) = 0 := by
      rw [hbag.holds, List.count_eq_zero]
      exact fun hmem => hnew.2.2 _ hmem _ (List.mem_singleton_self _) rfl
    rw [haround, toList_add lawful habsent, hbag.inOrder undirected']

theorem removeEdge (lawful : B.Lawful) (hbag : B.Mirrors bag g v) (h : g.WellFormed)
    (he : e ∈ g.edgeList) (hv : e.touches v = true) :
    B.Mirrors (B.remove bag (e.across v)) (g.apply (.removeEdge e)) v := by
  have hmem := Graph.mem_around he hv
  constructor
  case mem =>
    rw [Graph.vertices_removeEdge]
    exact hbag.mem
  case holds =>
    exact (hbag.holds.remove lawful hmem).of_perm (Graph.around_removeEdge_perm he hv)
  case inOrder =>
    intro undirected
    have undirected' : g.directed = false := undirected
    have honce : B.count bag (e.across v) = 1 := by
      rw [hbag.holds]
      exact List.count_eq_one_of_mem (Graph.nodup_around h undirected' v) hmem
    rw [toList_remove lawful honce, hbag.inOrder undirected',
      Graph.around_removeEdge_of_undirected h undirected' he hv]

end Bags.Mirrors

/-! ## All neighborhoods -/

namespace Neighborhoods

variable {B : Bags} {c : Neighborhoods B} {g g' : Graph} {e : Edge} {u v : Vertex} {w : Weight}

/-- Every cached neighborhood mirrors the graph. -/
def Faithful (c : Neighborhoods B) (g : Graph) : Prop :=
  ∀ {v bag}, c.cached.get? v = some bag → B.Mirrors bag g v

theorem Faithful.empty (g : Graph) : (Neighborhoods.empty : Neighborhoods B).Faithful g := by
  intro v bag h
  cases h

/-! ### Questions -/

/-- What is looked up mirrors the graph, whether it was cached or is built now. -/
theorem lookup_spec (lawful : B.Lawful) (h : g.WellFormed) (faithful : c.Faithful g)
    (hv : v ∈ g.vertices) :
    ∃ c' bag, c.lookup g v = (c', .ok bag) ∧ c'.Faithful g ∧ B.Mirrors bag g v := by
  unfold lookup
  cases hcached : c.cached.get? v with
  | some bag => exact ⟨c, bag, rfl, faithful, faithful hcached⟩
  | none =>
    rw [h.neighborList_eq hv]
    refine ⟨_, _, rfl, fun {x bag} hx => ?_, Bags.Mirrors.ofList lawful h hv⟩
    rw [OrderedMap.get?_insert] at hx
    split_ifs at hx with hvx
    · subst hvx
      obtain rfl := Option.some.inj hx
      exact Bags.Mirrors.ofList lawful h hv
    · exact faithful hx

theorem lookup_eq_error (h : g.WellFormed) (faithful : c.Faithful g) (hv : v ∉ g.vertices) :
    c.lookup g v = (c, .error (.absent v)) := by
  unfold lookup
  cases hcached : c.cached.get? v with
  | some bag => exact absurd (faithful hcached).mem hv
  | none => rw [Graph.neighborList_eq_error h hv]

theorem Faithful.lookup (lawful : B.Lawful) (h : g.WellFormed) (faithful : c.Faithful g)
    (v : Vertex) :
    (c.lookup g v).1.Faithful g := by
  by_cases hv : v ∈ g.vertices
  · obtain ⟨c', bag, hlookup, hc', -⟩ := lookup_spec lawful h faithful hv
    rw [hlookup]
    exact hc'
  · rw [lookup_eq_error h faithful hv]
    exact faithful

/-! ### Events -/

/-- A vertex of the graph that gains a neighbor has a neighborhood afterwards. -/
theorem gain_eq (h : g.WellFormed) (hv : v ∈ g.vertices) (c : Neighborhoods B) (u : Vertex) :
    c.gain g v u = (⟨c.cached.insert v ((c.cached.get? v).elim (B.ofList (g.around v))
      fun bag => B.add bag u)⟩, .ok ()) := by
  unfold gain
  cases hcached : c.cached.get? v with
  | some bag => rfl
  | none =>
    unfold lookup
    rw [hcached, h.neighborList_eq hv]
    rfl

theorem lose_spec (lawful : B.Lawful)
    (hheld : ∀ bag, c.cached.get? v = some bag → 0 < B.count bag u) :
    ∃ c', c.lose v u = (c', .ok ()) ∧ ∀ x, c'.cached.get? x =
      if v = x then (c.cached.get? x).map fun bag => B.remove bag u else c.cached.get? x := by
  unfold lose
  cases hcached : c.cached.get? v with
  | none =>
    refine ⟨c, rfl, fun x => ?_⟩
    split_ifs with hvx
    · subst hvx
      rw [hcached]
      rfl
    · rfl
  | some bag =>
    dsimp only
    rw [if_pos ((lawful.contains_iff bag u).2 (hheld bag hcached))]
    refine ⟨_, rfl, fun x => ?_⟩
    rw [OrderedMap.get?_insert]
    split_ifs with hvx
    · subst hvx
      rw [hcached]
      rfl
    · rfl

/-- An edge that came gives each of its ends a neighbor, or has the neighborhood built. -/
theorem edgeAdded_spec (h : g.WellFormed) (he : e ∈ g.edgeList) (c : Neighborhoods B) :
    ∃ c', c.edgeAdded g e.toKey = (c', .ok ()) ∧ ∀ x, c'.cached.get? x =
      if e.touches x then
        some ((c.cached.get? x).elim (B.ofList (g.around x)) fun bag => B.add bag (e.across x))
      else c.cached.get? x := by
  have ne := h.loopless he
  have hboth : c.edgeAdded g e.toKey = (c.gain g e.source e.target).1.gain g e.target e.source := by
    unfold edgeAdded
    simp only [Graph.endpoints_eq he, gain_eq h (h.source_mem he)]
  rw [hboth, gain_eq h (h.source_mem he), gain_eq h (h.target_mem he)]
  refine ⟨_, rfl, fun x => ?_⟩
  rw [OrderedMap.get?_insert, OrderedMap.get?_insert, OrderedMap.get?_insert, if_neg ne]
  by_cases hs : e.source = x
  · subst hs
    simp [Graph.touches_iff, Edge.across, Ne.symm ne]
  · by_cases ht : e.target = x
    · subst ht
      simp [Graph.touches_iff, Edge.across, ne]
    · simp [Graph.touches_iff, hs, ht]

/-- An edge that went takes a neighbor from each of its ends that has a cached neighborhood. -/
theorem edgeRemoved_spec (lawful : B.Lawful) (ne : e.source ≠ e.target)
    (hheld : ∀ x bag, e.touches x = true → c.cached.get? x = some bag →
      0 < B.count bag (e.across x)) :
    ∃ c', c.edgeRemoved e.toKey = (c', .ok ()) ∧ ∀ x, c'.cached.get? x =
      if e.touches x then (c.cached.get? x).map fun bag => B.remove bag (e.across x)
      else c.cached.get? x := by
  have hsource : e.across e.source = e.target := if_pos rfl
  have htarget : e.across e.target = e.source := if_neg ne
  obtain ⟨c₁, h₁, hget₁⟩ := lose_spec lawful (c := c) (v := e.source) (u := e.target)
    fun bag hbag => hsource ▸ hheld _ bag (Graph.touches_iff.2 (.inl rfl)) hbag
  obtain ⟨c₂, h₂, hget₂⟩ := lose_spec lawful (c := c₁) (v := e.target) (u := e.source)
    fun bag hbag => by
      rw [hget₁, if_neg ne] at hbag
      exact htarget ▸ hheld _ bag (Graph.touches_iff.2 (.inr rfl)) hbag
  refine ⟨c₂, ?_, fun x => ?_⟩
  · unfold edgeRemoved
    have hparts : Edge.parts e.toKey = .ok (e.source, e.target) := rfl
    simp only [hparts, h₁, h₂]
  · rw [hget₂, hget₁]
    -- No vertex loses twice: the ends differ.
    by_cases hs : e.source = x
    · have ht : e.target ≠ x := fun ht => ne (hs.trans ht.symm)
      simp [Graph.touches_iff, Edge.across, hs, ht]
    · simp [Graph.touches_iff, Edge.across, hs]

theorem Faithful.reweigh (faithful : c.Faithful g) : c.Faithful (g.apply (.reweigh e w)) :=
  fun hx => (faithful hx).of_around_eq rfl (faithful hx).mem
    (Graph.around_congr Graph.edgeList_reweigh)

/-- **A cache that is told of a change** does not fail, and is faithful to the graph after it. -/
theorem Faithful.receive (lawful : B.Lawful) (faithful : c.Faithful g) (h : g.WellFormed)
    {change : Change} (fits : change.Fits g) {event : Event}
    (hevent : change.event? = some event) :
    ∃ c', c.receive (g.apply change) event = (c', .ok ()) ∧ c'.Faithful (g.apply change) := by
  have h' := h.apply fits
  cases change with
  | reweigh e w => cases hevent
  | addVertex v =>
    obtain rfl := Option.some.inj hevent
    refine ⟨c, rfl, fun {x bag} hx => (faithful hx).of_around_eq rfl ?_ (Graph.around_congr rfl)⟩
    rw [Graph.vertices_addVertex fits]
    exact List.mem_append_left _ (faithful hx).mem
  | removeVertex v =>
    obtain rfl := Option.some.inj hevent
    refine ⟨_, rfl, fun {x bag} hx => ?_⟩
    have hx' : (c.cached.erase v).get? x = some bag := hx
    rw [OrderedMap.get?_erase] at hx'
    split_ifs at hx' with hvx
    refine (faithful hx').of_around_eq rfl ?_ (Graph.around_congr rfl)
    rw [Graph.vertices_removeVertex, List.mem_filter, decide_eq_true_eq]
    exact ⟨(faithful hx').mem, Ne.symm hvx⟩
  | addEdge e w =>
    obtain rfl := Option.some.inj hevent
    have hadded := Graph.edgeList_addEdge (w := w) (h.notMem_of_fits fits)
    have he : e ∈ (g.apply (.addEdge e w)).edgeList := by simp [hadded]
    obtain ⟨c', hc', hget⟩ := edgeAdded_spec h' he c
    refine ⟨c', hc', fun {x bag} hx => ?_⟩
    rw [hget] at hx
    split_ifs at hx with hex
    · obtain rfl := Option.some.inj hx
      -- Without an entry the neighborhood is built from the graph, which has the edge already.
      cases hcached : c.cached.get? x with
      | none => exact Bags.Mirrors.ofList lawful h' (h'.mem_of_touches he hex)
      | some bag => exact (faithful hcached).addEdge lawful h fits hex
    · refine (faithful hx).of_around_eq rfl ?_ ?_
      · rw [Graph.vertices_addEdge]
        exact (faithful hx).mem
      · rw [Graph.around_addEdge h fits, if_neg hex]
  | removeEdge e =>
    obtain rfl := Option.some.inj hevent
    -- What the entries of the ends are to lose is in them, as the cache was faithful before.
    obtain ⟨c', hc', hget⟩ := edgeRemoved_spec (c := c) lawful (h.loopless fits)
      fun x bag hex hx => (faithful hx).holds.count_pos_iff.2 (Graph.mem_around fits hex)
    refine ⟨c', hc', fun {x bag} hx => ?_⟩
    rw [hget] at hx
    split_ifs at hx with hex
    · obtain ⟨bag', hcached, rfl⟩ := Option.map_eq_some_iff.1 hx
      exact (faithful hcached).removeEdge lawful h fits hex
    · refine (faithful hx).of_around_eq rfl ?_ (Graph.around_removeEdge_of_not_touches hex)
      rw [Graph.vertices_removeEdge]
      exact (faithful hx).mem

end Neighborhoods

end OptimalMatching
