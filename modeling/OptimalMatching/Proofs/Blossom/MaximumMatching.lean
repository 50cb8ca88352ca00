import Mathlib.Data.Finset.Card
import OptimalMatching.Blossom.MaximumMatching
import OptimalMatching.Proofs.Blossom.Run
import OptimalMatching.Proofs.Graph.Reachable
import OptimalMatching.Proofs.Mates
/-!
# Maximum matchings of graphs

Between a graph and the positions of its vertices, matchings are carried over in both directions.
The pairs of a matching of positions are edges without common ends (`Run.edges_apart`), and there is
one for any two covered vertices. Edges without common ends pair their positions off
(`matesOf`), so that each of them covers two vertices.
-/

namespace OptimalMatching.Blossom

variable {view : View}

/-! ## Positions -/

theorem position?_eq_some_iff {vertices : List Vertex} (nodup : vertices.Nodup) {v : Vertex}
    {i : Fin vertices.length} : position? vertices v = some i ↔ vertices.get i = v := by
  constructor
  · intro h
    simpa using List.find?_some h
  · intro h
    cases hp : position? vertices v with
    | none => exact absurd h (by simpa using List.find?_eq_none.1 hp i (List.mem_finRange i))
    | some j =>
      have hj : vertices.get j = v := by simpa using List.find?_some hp
      rw [nodup.get_inj_iff.1 (hj.trans h.symm)]

theorem exists_position {vertices : List Vertex} {v : Vertex} (h : v ∈ vertices) :
    ∃ i : Fin vertices.length, vertices.get i = v :=
  List.mem_iff_get.1 h

theorem nodup_vertices (view : View) : view.vertices.Nodup := view.graph.adjacency.nodup_keys

theorem get_inj {i j : Fin view.vertices.length} :
    view.vertices.get i = view.vertices.get j ↔ i = j :=
  (nodup_vertices view).get_inj_iff

/-- The neighbors of a position are the positions to which an edge leads. -/
def Represents (view : View) (neighbors : Neighbors view.vertices.length) : Prop :=
  ∀ i j, j ∈ neighbors.get i ↔ (view.edge? (view.vertices.get i) (view.vertices.get j)).isSome

theorem neighborsOf_spec (wf : view.graph.WellFormed) (undirected : view.directed = false) :
    ∃ neighbors, neighborsOf view = .ok neighbors ∧ Represents view neighbors := by
  have hmem : ∀ {v u}, u ∈ ((view.graph.edgeList.filter fun e => e.touches v).map fun e =>
      e.across v) ↔ (view.edge? v u).isSome := wf.mem_neighbors_iff undirected
  have hpos : ∀ {v u}, (view.edge? v u).isSome → ∃ j, position? view.vertices u = some j := by
    intro v u hu
    obtain ⟨e, he⟩ := Option.isSome_iff_exists.1 hu
    obtain ⟨hedge, hj⟩ := wf.edge?_iff.1 he
    obtain ⟨j, hj⟩ := exists_position (wf.mem_of_touches hedge (Graph.touches_of_joins hj).2)
    exact ⟨j, (position?_eq_some_iff (nodup_vertices view)).2 hj⟩
  let us (i : Fin view.vertices.length) : List Vertex :=
    (view.graph.edgeList.filter fun e => e.touches (view.vertices.get i)).map fun e =>
      e.across (view.vertices.get i)
  refine ⟨.ofFn fun i => (us i).map fun u => (position? view.vertices u).getD i,
    Table.tabulateM_eq_ok_iff.2 fun i => ?_, fun i j => ?_⟩
  · -- Every neighbor has a position, so the look-ups succeed.
    have hlist : view.neighborList (view.vertices.get i) = .ok (us i) :=
      wf.neighborList_eq (List.get_mem view.vertices i)
    rw [hlist, Table.get_ofFn]
    refine mapM_eq_ok fun u hu => ?_
    obtain ⟨j, hj⟩ := hpos (hmem.1 hu)
    rw [hj]
    rfl
  · rw [Table.get_ofFn, List.mem_map, ← hmem]
    constructor
    · rintro ⟨u, hu, rfl⟩
      obtain ⟨j, hj⟩ := hpos (hmem.1 hu)
      rw [hj, Option.getD_some, (position?_eq_some_iff (nodup_vertices view)).1 hj]
      exact hu
    · intro hu
      exact ⟨_, hu, by rw [(position?_eq_some_iff (nodup_vertices view)).2 rfl, Option.getD_some]⟩

variable {neighbors : Neighbors view.vertices.length} {mates : Mates view.vertices.length}
variable {r : Run view.vertices.length}

/-- The neighbors of the positions form a graph without loops. -/
theorem Represents.simple (h : Represents view neighbors) (wf : view.graph.WellFormed)
    (undirected : view.directed = false) : neighbors.Simple where
  symm {i j} hj := by
    have hcomm : view.edge? _ _ = view.edge? _ _ :=
      wf.edge?_comm (u := view.vertices.get i) (v := view.vertices.get j) undirected
    rw [h, ← hcomm]
    exact (h i j).1 hj
  loopless i hi := by
    have hself : view.edge? _ _ = none := wf.edge?_self (v := view.vertices.get i)
    rw [h, hself] at hi
    cases hi

/-! ## From pairs of positions to edges -/

theorem Run.pairs_eq {n : Nat} (r : Run n) : r.pairs = (List.finRange n).filterMap fun i =>
    (r.mates.get i).bind fun j => if i < j then some (i, j) else none := by
  unfold pairs
  refine List.filterMap_congr fun i _ => ?_
  cases r.mates.get i <;> rfl

theorem Run.mem_pairs {n : Nat} {r : Run n} {i j : Fin n} :
    (i, j) ∈ r.pairs ↔ r.mates.get i = some j ∧ i < j := by
  simp only [pairs_eq, List.mem_filterMap, Option.bind_eq_some_iff]
  constructor
  · rintro ⟨k, -, l, hl, hk⟩
    split_ifs at hk with hlt
    obtain ⟨rfl, rfl⟩ := Prod.mk.inj (Option.some.inj hk)
    exact ⟨hl, hlt⟩
  · rintro ⟨hij, hlt⟩
    exact ⟨i, List.mem_finRange i, j, hij, if_pos hlt⟩

theorem Run.pairs_apart {n : Nat} {r : Run n} {neighbors : Neighbors n}
    (valid : r.mates.Valid neighbors) :
    r.pairs.Pairwise fun p q => p.1 ≠ q.1 ∧ p.1 ≠ q.2 ∧ p.2 ≠ q.1 ∧ p.2 ≠ q.2 := by
  have hpair : ∀ {i : Fin n} {p}, ((r.mates.get i).bind fun j =>
      if i < j then some (i, j) else none) = some p →
        p.1 = i ∧ r.mates.get i = some p.2 ∧ i < p.2 := by
    intro i p hp
    obtain ⟨j, hj, hp⟩ := Option.bind_eq_some_iff.1 hp
    split_ifs at hp with hlt
    obtain rfl := Option.some.inj hp
    exact ⟨rfl, hj, hlt⟩
  rw [pairs_eq]
  refine List.pairwise_filterMap.2 ((List.nodup_finRange n).imp fun {a b} hab p hp q hq => ?_)
  obtain ⟨rfl, hp, hlp⟩ := hpair hp
  obtain ⟨rfl, hq, hlq⟩ := hpair hq
  -- A pair listed both ways round would be increasing and decreasing.
  refine ⟨hab, fun h => ?_, fun h => ?_, fun h => hab (valid.injective hp (h ▸ hq))⟩
  · have hback := valid.symm hq
    rw [← h, hp, Option.some_inj] at hback
    omega
  · have hback := valid.symm hp
    rw [h, hq, Option.some_inj] at hback
    omega

/-- The edges between the pairs of a run, as far as there are any. -/
def Run.edges (view : View) (r : Run view.vertices.length) : List Edge :=
  r.pairs.filterMap fun (i, j) => view.edge? (view.vertices.get i) (view.vertices.get j)

theorem Run.isSome_edge?_of_mem_pairs (represents : Represents view neighbors)
    (valid : r.mates.Valid neighbors) {i j : Fin view.vertices.length} (h : (i, j) ∈ r.pairs) :
    (view.edge? (view.vertices.get i) (view.vertices.get j)).isSome :=
  (represents i j).1 (valid.adjacent (mem_pairs.1 h).1)

theorem Run.storedEdges_eq (represents : Represents view neighbors)
    (valid : r.mates.Valid neighbors) :
    r.storedEdges view = .ok (r.edges view) ∧ (r.edges view).length = r.pairs.length := by
  have hedge : ∀ i j, (i, j) ∈ r.pairs → _ := fun i j =>
    isSome_edge?_of_mem_pairs represents valid
  unfold storedEdges edges
  generalize r.pairs = pairs at hedge
  induction pairs with
  | nil => exact ⟨rfl, rfl⟩
  | cons p pairs ih =>
    obtain ⟨i, j⟩ := p
    obtain ⟨e, he⟩ := Option.isSome_iff_exists.1 (hedge i j List.mem_cons_self)
    obtain ⟨hstored, hlength⟩ := ih fun i j h => hedge i j (List.mem_cons_of_mem _ h)
    constructor
    · simp only [List.mapM_cons, List.filterMap_cons, he, hstored]
      rfl
    · simp only [List.filterMap_cons, he, List.length_cons, hlength]

theorem Run.mem_edges {e : Edge} : e ∈ r.edges view ↔ ∃ i j, r.mates.get i = some j ∧ i < j ∧
    view.edge? (view.vertices.get i) (view.vertices.get j) = some e := by
  unfold edges
  rw [List.mem_filterMap]
  constructor
  · rintro ⟨⟨i, j⟩, hij, he⟩
    exact ⟨i, j, (mem_pairs.1 hij).1, (mem_pairs.1 hij).2, he⟩
  · rintro ⟨i, j, hij, hlt, he⟩
    exact ⟨(i, j), mem_pairs.2 ⟨hij, hlt⟩, he⟩

theorem Run.edges_apart (wf : view.graph.WellFormed) (valid : r.mates.Valid neighbors) :
    (r.edges view).Pairwise Edge.Apart := by
  refine List.pairwise_filterMap.2 ((pairs_apart valid).imp fun {p q} hpq e he f hf v hev hfv => ?_)
  rcases (Graph.touches_iff_of_joins (wf.edge?_iff.1 he).2).1 hev with hi | hi <;>
    rcases (Graph.touches_iff_of_joins (wf.edge?_iff.1 hf).2).1 hfv with hj | hj <;>
      have heq := get_inj.1 (hi.symm.trans hj)
  · exact hpq.1 heq
  · exact hpq.2.1 heq
  · exact hpq.2.2.1 heq
  · exact hpq.2.2.2 heq

/-- There is an edge for any two covered positions. -/
theorem Run.card_covered_le (wf : view.graph.WellFormed) (undirected : view.directed = false)
    (represents : Represents view neighbors) (valid : r.mates.Valid neighbors) :
    r.mates.covered.card ≤ 2 * (r.edges view).length := by
  have hedge : ∀ {i j}, r.mates.get i = some j → i < j → ∃ e ∈ r.edges view,
      e.touches (view.vertices.get i) = true ∧ e.touches (view.vertices.get j) = true := by
    intro i j hij hlt
    obtain ⟨e, he⟩ := Option.isSome_iff_exists.1 ((represents i j).1 (valid.adjacent hij))
    exact ⟨e, mem_edges.2 ⟨i, j, hij, hlt, he⟩, Graph.touches_of_joins (wf.edge?_iff.1 he).2⟩
  have hsub : r.mates.covered.image view.vertices.get ⊆
      (r.edges view).toFinset.image Edge.source ∪ (r.edges view).toFinset.image Edge.target := by
    intro v hv
    obtain ⟨i, hi, rfl⟩ := Finset.mem_image.1 hv
    obtain ⟨j, hij⟩ := Option.isSome_iff_exists.1 (Mates.mem_covered.1 hi)
    -- The edge of a pair is listed once, from the lower to the higher position.
    obtain ⟨e, he, htouch⟩ : ∃ e ∈ r.edges view, e.touches (view.vertices.get i) = true := by
      rcases lt_trichotomy i j with hlt | rfl | hlt
      · obtain ⟨e, he, htouch, -⟩ := hedge hij hlt
        exact ⟨e, he, htouch⟩
      · exact absurd rfl (valid.ne_self (represents.simple wf undirected) hij)
      · obtain ⟨e, he, -, htouch⟩ := hedge (valid.symm hij) hlt
        exact ⟨e, he, htouch⟩
    rw [Finset.mem_union]
    exact (Graph.touches_iff.1 htouch).imp
      (fun hs => Finset.mem_image.2 ⟨e, List.mem_toFinset.2 he, hs⟩)
      fun ht => Finset.mem_image.2 ⟨e, List.mem_toFinset.2 he, ht⟩
  calc r.mates.covered.card
      = (r.mates.covered.image view.vertices.get).card :=
        (Finset.card_image_of_injective _ fun _ _ => get_inj.1).symm
    _ ≤ _ := Finset.card_le_card hsub
    _ ≤ _ := Finset.card_union_le _ _
    _ ≤ (r.edges view).toFinset.card + (r.edges view).toFinset.card :=
        Nat.add_le_add Finset.card_image_le Finset.card_image_le
    _ ≤ 2 * (r.edges view).length := by
        have := List.toFinset_card_le (r.edges view)
        omega

/-! ## From edges to pairs of positions -/

/-- The mates that a list of edges without common ends gives the positions. -/
def matesOf (view : View) (es : List Edge) : Mates view.vertices.length :=
  .ofFn fun i => (es.find? fun e => e.touches (view.vertices.get i)).bind fun e =>
    position? view.vertices (e.across (view.vertices.get i))

section MatesOf

variable {es : List Edge} (wf : view.graph.WellFormed) (undirected : view.directed = false)
  (stored : ∀ e ∈ es, e ∈ view.edgeList) (apart : es.Pairwise Edge.Apart)

include apart in
theorem find?_touches {e : Edge} {v : Vertex} (he : e ∈ es) (hv : e.touches v = true) :
    es.find? (fun e => e.touches v) = some e := by
  cases hf : es.find? (fun e => e.touches v) with
  | none => exact absurd hv (List.find?_eq_none.1 hf e he)
  | some f =>
    have hfv : f.touches v = true := by simpa using List.find?_some hf
    rw [eq_of_touches apart he (List.mem_of_find?_eq_some hf) hv hfv]

include apart in
/-- Different edges have different ends of one kind. -/
theorem card_image_end {f : Edge → Vertex} (isEnd : ∀ e : Edge, e.touches (f e) = true) :
    (es.toFinset.image f).card = es.length := by
  rw [Finset.card_image_of_injOn, List.toFinset_card_of_nodup (nodup_of_apart apart)]
  intro e he e' he' heq
  rw [List.coe_toFinset] at he he'
  exact eq_of_touches apart he he' (isEnd e) (heq ▸ isEnd e')

include wf undirected stored apart

theorem get_matesOf_iff {i j : Fin view.vertices.length} : (matesOf view es).get i = some j ↔
    ∃ e ∈ es, view.edge? (view.vertices.get i) (view.vertices.get j) = some e := by
  rw [matesOf, Table.get_ofFn, Option.bind_eq_some_iff]
  refine exists_congr fun e => ⟨?_, ?_⟩
  · rintro ⟨hfind, hpos⟩
    have he := List.mem_of_find?_eq_some hfind
    have htouch : e.touches (view.vertices.get i) = true := by simpa using List.find?_some hfind
    refine ⟨he, wf.edge?_iff.2 ⟨stored e he, ?_⟩⟩
    rw [(position?_eq_some_iff (nodup_vertices view)).1 hpos]
    exact Graph.joins_across undirected htouch
  · rintro ⟨he, hedge⟩
    have hj := (wf.edge?_iff.1 hedge).2
    refine ⟨find?_touches apart he (Graph.touches_of_joins hj).1, ?_⟩
    rw [Graph.across_of_joins (wf.loopless (stored e he)) hj,
      position?_eq_some_iff (nodup_vertices view)]

theorem valid_matesOf (represents : Represents view neighbors) :
    (matesOf view es).Valid neighbors where
  symm {i j} h := by
    have hcomm : view.edge? _ _ = view.edge? _ _ :=
      wf.edge?_comm (u := view.vertices.get i) (v := view.vertices.get j) undirected
    rw [get_matesOf_iff wf undirected stored apart] at h ⊢
    rwa [← hcomm]
  adjacent {i j} h := by
    obtain ⟨e, -, he⟩ := (get_matesOf_iff wf undirected stored apart).1 h
    exact (represents i j).2 (Option.isSome_iff_exists.2 ⟨e, he⟩)

/-- Each edge covers two positions. -/
theorem two_mul_length_le_card_covered : 2 * es.length ≤ (matesOf view es).covered.card := by
  have hsource : ∀ e : Edge, e.touches e.source = true := fun e => Graph.touches_iff.2 (.inl rfl)
  have htarget : ∀ e : Edge, e.touches e.target = true := fun e => Graph.touches_iff.2 (.inr rfl)
  have hdisjoint : Disjoint (es.toFinset.image Edge.source) (es.toFinset.image Edge.target) := by
    refine Finset.disjoint_left.2 fun v hs ht => ?_
    obtain ⟨e, he, rfl⟩ := Finset.mem_image.1 hs
    obtain ⟨f, hf, hfe⟩ := Finset.mem_image.1 ht
    rw [List.mem_toFinset] at he hf
    obtain rfl := eq_of_touches apart he hf (hsource e) (hfe ▸ htarget f)
    exact wf.loopless (stored e he) hfe.symm
  have hsub : es.toFinset.image Edge.source ∪ es.toFinset.image Edge.target ⊆
      (matesOf view es).covered.image view.vertices.get := by
    intro v hv
    obtain ⟨e, he, htouch⟩ : ∃ e ∈ es, e.touches v = true := by
      rcases Finset.mem_union.1 hv with hv | hv <;> obtain ⟨e, he, rfl⟩ := Finset.mem_image.1 hv
      · exact ⟨e, List.mem_toFinset.1 he, hsource e⟩
      · exact ⟨e, List.mem_toFinset.1 he, htarget e⟩
    have hj : view.graph.Joins e v (e.across v) := Graph.joins_across undirected htouch
    obtain ⟨i, rfl⟩ := exists_position (wf.mem_of_touches (stored e he) htouch)
    obtain ⟨j, hjv⟩ := exists_position
      (wf.mem_of_touches (stored e he) (Graph.touches_of_joins hj).2)
    refine Finset.mem_image.2 ⟨i, ?_, rfl⟩
    refine Mates.mem_covered_of_some (w := j)
      ((get_matesOf_iff wf undirected stored apart).2 ⟨e, he, ?_⟩)
    exact wf.edge?_iff.2 ⟨stored e he, hjv ▸ hj⟩
  calc 2 * es.length
      = (es.toFinset.image Edge.source ∪ es.toFinset.image Edge.target).card := by
        rw [Finset.card_union_of_disjoint hdisjoint, card_image_end apart hsource,
          card_image_end apart htarget, Nat.two_mul]
    _ ≤ _ := Finset.card_le_card hsub
    _ ≤ (matesOf view es).covered.card := Finset.card_image_le

end MatesOf

/-! ## The result -/

theorem checkKind_eq_ok (undirected : view.directed = false) (simple : view.simple = true) :
    checkKind view = .ok () := by
  simp [checkKind, undirected, simple]

theorem Run.edges_stored (wf : view.graph.WellFormed) : ∀ e ∈ r.edges view, e ∈ view.edgeList := by
  intro e he
  obtain ⟨i, j, -, -, hedge⟩ := mem_edges.1 he
  exact (wf.edge?_iff.1 hedge).1

/-- The run on the positions of a graph comes to its end. Its matching is as large as any other,
and the edges of its pairs make a matching of the graph. -/
theorem Run.ofNeighbors?_edges (wf : view.graph.WellFormed) (undirected : view.directed = false)
    {neighbors : Neighbors view.vertices.length} (represents : Represents view neighbors) :
    ∃ r, ofNeighbors? neighbors = some r ∧ r.mates.Valid neighbors ∧
      (∀ other : Mates view.vertices.length, other.Valid neighbors →
        other.covered.card ≤ r.mates.covered.card) ∧
      r.storedEdges view = .ok (r.edges view) ∧ (r.edges view).length = r.pairs.length ∧
        ∃ mates, Matching.ofEdges (fun e => view.endpoints e.toKey) (r.edges view)
          (.int (r.edges view).length) = .ok ⟨r.edges view, .int (r.edges view).length, mates⟩ := by
  obtain ⟨r, hr, valid, maximum⟩ := from?_maximum (represents.simple wf undirected)
    (Mates.valid_replicate neighbors)
  obtain ⟨hstored, hlength⟩ := storedEdges_eq represents valid
  exact ⟨r, hr, valid, maximum, hstored, hlength,
    Matching.ofEdges_eq_ok (.int (r.edges view).length)
      (fun e he => Graph.endpoints_eq (edges_stored wf e he)) (edges_apart wf valid)⟩

theorem compute_eq {neighbors : Neighbors view.vertices.length} {r : Run view.vertices.length}
    {m : Matching Edge} (nonempty : view.vertices ≠ [])
    (hneighbors : neighborsOf view = .ok neighbors) (hr : Run.ofNeighbors? neighbors = some r)
    (hstored : r.storedEdges view = .ok (r.edges view))
    (hlength : (r.edges view).length = r.pairs.length)
    (hm : Matching.ofEdges (fun e => view.endpoints e.toKey) (r.edges view)
      (.int (r.edges view).length) = .ok m) :
    compute view =
      ⟨r.reports ++ [.maximum (r.edges view).length view.vertices.length], .ok m⟩ := by
  unfold compute
  rw [if_neg (by simpa using nonempty), hneighbors]
  dsimp only
  rw [hr]
  dsimp only
  rw [hstored, ← hlength]
  exact congrArg (Outcome.mk _) hm

/-- A run of the algorithm on a graph gives edges that are apart and as many as possible. -/
theorem compute_spec (wf : view.graph.WellFormed) (undirected : view.directed = false) :
    ∃ m, (compute view).result = .ok m ∧ (∀ e ∈ m.edges, e ∈ view.edgeList) ∧
      m.edges.Pairwise Edge.Apart ∧ m.value = .int m.edges.length ∧
        ∀ es : List Edge, (∀ e ∈ es, e ∈ view.edgeList) → es.Pairwise Edge.Apart →
          es.length ≤ m.edges.length := by
  by_cases hempty : view.vertices = []
  · have hcompute : compute view = ⟨[], .ok .empty⟩ := if_pos (by simp [hempty])
    rw [hcompute]
    refine ⟨.empty, rfl, by simp [Matching.empty], .nil, rfl, fun es hes _ => ?_⟩
    cases es with
    | nil => rfl
    | cons e es =>
      have hmem := wf.source_mem (hes e List.mem_cons_self)
      change e.source ∈ view.vertices at hmem
      rw [hempty] at hmem
      cases hmem
  · obtain ⟨neighbors, hneighbors, represents⟩ := neighborsOf_spec wf undirected
    obtain ⟨r, hr, valid, maximum, hstored, hlength, mates, hm⟩ :=
      Run.ofNeighbors?_edges wf undirected represents
    rw [compute_eq hempty hneighbors hr hstored hlength hm]
    refine ⟨_, rfl, Run.edges_stored wf, Run.edges_apart wf valid, rfl, fun es stored apart => ?_⟩
    -- Any such edges give mates to twice as many positions, and the run covers the largest
    -- number of positions there can be.
    have h₁ := two_mul_length_le_card_covered wf undirected stored apart
    have h₂ := maximum _ (valid_matesOf wf undirected stored apart represents)
    have h₃ := Run.card_covered_le wf undirected represents valid
    dsimp only
    omega

end OptimalMatching.Blossom

namespace OptimalMatching

/-- **The maximum matching** of an undirected graph consists of stored edges without common ends,
its value is their number, and no set of edges without common ends has more elements. -/
theorem maximumMatching_isMaximum {view : View} (reachable : view.Reachable)
    (undirected : view.directed = false) :
    ∃ m, (maximumMatching view).result = .ok m ∧ (∀ e ∈ m.edges, e ∈ view.edgeList) ∧
      m.edges.Pairwise Edge.Apart ∧ m.value = .int m.edges.length ∧
        ∀ es : Finset Edge, (∀ e ∈ es, e ∈ view.edgeList) →
          (∀ e ∈ es, ∀ f ∈ es, e ≠ f → e.Apart f) → es.card ≤ m.edges.length := by
  obtain ⟨m, hm, stored, apart, value, bound⟩ :=
    Blossom.compute_spec reachable.wellFormed undirected
  refine ⟨m, ?_, stored, apart, value, fun es hes hapart => ?_⟩
  · unfold maximumMatching
    rw [Blossom.checkKind_eq_ok undirected reachable.simple]
    exact hm
  · rw [← Finset.length_toList]
    refine bound _ (fun e he => hes e (Finset.mem_toList.1 he))
      (es.nodup_toList.pairwise_of_forall_ne fun e he f hf => ?_)
    exact hapart e (Finset.mem_toList.1 he) f (Finset.mem_toList.1 hf)

/-- A triangle with a tail, and a vertex by itself. -/
def tadpole : Graph :=
  let edges := (Graph.empty false).applyAll (Operation.changes (Graph.empty false)
    (.update [(.tuple [.int 1, .int 2], .int 1), (.tuple [.int 2, .int 3], .int 1),
      (.tuple [.int 3, .int 1], .int 1), (.tuple [.int 3, .text "end"], .int 1)]))
  edges.applyAll (Operation.changes edges (.addVertex .null))

theorem maximumMatching_isMaximum_tadpole :
    (View.ofGraph tadpole).Reachable ∧ (View.ofGraph tadpole).directed = false ∧
      ∃ m, (maximumMatching (.ofGraph tadpole)).result = .ok m ∧
        (∀ e ∈ m.edges, e ∈ (View.ofGraph tadpole).edgeList) ∧
          m.edges.Pairwise Edge.Apart ∧ m.value = .int m.edges.length ∧
            ∀ es : Finset Edge, (∀ e ∈ es, e ∈ (View.ofGraph tadpole).edgeList) →
              (∀ e ∈ es, ∀ f ∈ es, e ≠ f → e.Apart f) → es.card ≤ m.edges.length := by
  have reachable : (View.ofGraph tadpole).Reachable :=
    .graph (((Graph.Reachable.empty false).whole _).whole _)
  exact ⟨reachable, rfl, maximumMatching_isMaximum reachable rfl⟩

end OptimalMatching
