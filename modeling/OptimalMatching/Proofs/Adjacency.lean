import OptimalMatching.Proofs.Blossom.MaximumMatching
import OptimalMatching.Proofs.Neighborhoods
/-!
# How often a vertex is a neighbor

The neighbors of a vertex are read off the edges that touch it, while an edge is looked up by its
two ends. The two agree, however the graph has come about.

**By name.** From one of its ends an edge leads to the other one. So a vertex has another one for a
neighbor once for each edge between the two (`Graph.count_around`), and the edges between them are
the same from either side. In an undirected graph there is one at most, which is the one that is
looked up (`Graph.count_around_of_undirected`).

**By position.** A search for a maximum matching has positions in the place of vertices. What it
lists for a position are, in the same order, the neighbors of the vertex there
(`Blossom.map_get_neighborsOf`). No other position has that vertex, so a position is listed as often
as its vertex is a neighbor (`Blossom.count_neighborsOf`).
-/

namespace OptimalMatching

/-! ## Neighbors by name -/

/-- An edge runs between two vertices, in one direction or in the other. -/
def Edge.Between (e : Edge) (u v : Vertex) : Prop := e = ⟨u, v⟩ ∨ e = ⟨v, u⟩

instance (e : Edge) (u v : Vertex) : Decidable (e.Between u v) :=
  inferInstanceAs (Decidable (_ ∨ _))

namespace Graph

variable {g : Graph} {e : Edge} {u v : Vertex}

/-- The edges between a vertex and another one are those that lead from the one to the other. -/
theorem between_iff_across (ne : e.source ≠ e.target) :
    e.Between u v ↔ e.touches u = true ∧ e.across u = v := by
  constructor
  · rintro (rfl | rfl)
    · exact ⟨touches_iff.2 (.inl rfl), if_pos rfl⟩
    · exact ⟨touches_iff.2 (.inr rfl), if_neg ne⟩
  · rintro ⟨hu, rfl⟩
    unfold Edge.across
    split_ifs with hs
    · exact .inl (hs ▸ rfl)
    · exact .inr ((touches_iff.1 hu).resolve_left hs ▸ rfl)

/-- A vertex has another one for a neighbor once for each edge between them. -/
theorem count_around (h : g.WellFormed) (u v : Vertex) :
    (g.around u).count v = g.edgeList.countP fun e => e.Between u v := by
  unfold around
  rw [List.count, List.countP_map, List.countP_filter]
  refine List.countP_congr fun e he => ?_
  simp [between_iff_across (h.loopless he), and_comm]

theorem count_around_comm (h : g.WellFormed) (u v : Vertex) :
    (g.around u).count v = (g.around v).count u := by
  rw [count_around h, count_around h]
  exact congrArg (List.countP · g.edgeList) (funext fun e => decide_eq_decide.2 or_comm)

theorem count_around_of_undirected (h : g.WellFormed) (undirected : g.directed = false)
    (u v : Vertex) : (g.around u).count v = if (g.edge? u v).isSome then 1 else 0 := by
  have hmem : v ∈ g.around u ↔ (g.edge? u v).isSome := h.mem_neighbors_iff undirected
  rw [(nodup_around h undirected u).count]
  simp only [hmem]

end Graph

/-! ## Neighbors by position -/

/-- What two steps give is given by the second one, after a first one that succeeds. -/
theorem exists_of_bind_eq_ok {α β ε : Type} {x : Except ε α} {f : α → Except ε β} {b : β}
    (h : x >>= f = .ok b) : ∃ a, x = .ok a ∧ f a = .ok b := by
  cases x with
  | error reason => cases h
  | ok a => exact ⟨a, rfl, h⟩

/-- If whatever is found for an element leads back to it, so does the list of what is found. -/
theorem map_of_mapM_eq_ok {α β ε : Type} {f : α → Except ε β} {back : β → α} {as : List α}
    {bs : List β} (leads : ∀ {a b}, f a = .ok b → back b = a) (h : as.mapM f = .ok bs) :
    bs.map back = as := by
  induction as generalizing bs with
  | nil =>
    obtain rfl := Except.ok.inj h
    rfl
  | cons a as ih =>
    rw [List.mapM_cons] at h
    obtain ⟨b, hb, h⟩ := exists_of_bind_eq_ok h
    obtain ⟨bs', hbs, h⟩ := exists_of_bind_eq_ok h
    obtain rfl := Except.ok.inj h
    rw [List.map_cons, leads hb, ih hbs]

namespace Blossom

variable {view : View} {neighbors : Neighbors view.vertices.length}

theorem map_get_neighborsOf (wf : view.graph.WellFormed) (h : neighborsOf view = .ok neighbors)
    (i : Fin view.vertices.length) :
    (neighbors.get i).map view.vertices.get = view.graph.around (view.vertices.get i) := by
  obtain ⟨us, hus, hi⟩ := exists_of_bind_eq_ok (Table.tabulateM_eq_ok_iff.1 h i)
  have hlist : view.neighborList (view.vertices.get i) =
      .ok (view.graph.around (view.vertices.get i)) :=
    wf.neighborList_eq (List.get_mem view.vertices i)
  obtain rfl := Except.ok.inj (hlist.symm.trans hus)
  refine map_of_mapM_eq_ok (fun {u j} hj => ?_) hi
  cases hp : position? view.vertices u with
  | none =>
    rw [hp] at hj
    cases hj
  | some k =>
    rw [hp] at hj
    obtain rfl := Except.ok.inj hj
    exact (position?_eq_some_iff (nodup_vertices view)).1 hp

theorem count_neighborsOf (wf : view.graph.WellFormed) (h : neighborsOf view = .ok neighbors)
    (i j : Fin view.vertices.length) :
    (neighbors.get i).count j =
      (view.graph.around (view.vertices.get i)).count (view.vertices.get j) := by
  rw [← map_get_neighborsOf wf h i]
  -- different positions have different vertices
  exact (List.count_map_of_injective _ _ (fun _ _ => get_inj.1) j).symm

end Blossom

/-! ## The result -/

/-- **Neighbors and edges agree** in every graph that operations lead to. For an undirected graph,
or a view of one, the neighbors by position are found: two positions are in each other's lists once,
if there is an edge between their vertices, and otherwise not at all, and no position is in its own
list. In any graph, directed or not, two vertices are in each other's lists once for each stored
edge between them. -/
theorem neighbors_agree_with_edges :
    (∀ view : View, view.Reachable → view.directed = false →
      ∃ neighbors, Blossom.neighborsOf view = .ok neighbors ∧ neighbors.Simple ∧
        ∀ i j, (neighbors.get i).count j =
          if (view.edge? (view.vertices.get i) (view.vertices.get j)).isSome then 1 else 0) ∧
    ∀ g : Graph, g.Reachable → ∀ u ∈ g.vertices, ∀ v ∈ g.vertices,
      ∃ us vs, g.neighborList u = .ok us ∧ g.neighborList v = .ok vs ∧
        vs.count u = us.count v ∧ us.count v = g.edgeList.countP fun e => e.Between u v := by
  constructor
  · intro view reachable undirected
    have wf := reachable.wellFormed
    obtain ⟨neighbors, hneighbors, represents⟩ := Blossom.neighborsOf_spec wf undirected
    refine ⟨neighbors, hneighbors, represents.simple wf undirected, fun i j => ?_⟩
    rw [Blossom.count_neighborsOf wf hneighbors]
    exact Graph.count_around_of_undirected wf undirected _ _
  · intro g reachable u hu v hv
    have wf := reachable.wellFormed
    exact ⟨_, _, wf.neighborList_eq hu, wf.neighborList_eq hv, Graph.count_around_comm wf v u,
      Graph.count_around wf u v⟩

/-- A triangle, and a vertex by itself. One edge of the triangle has been taken out and put in again
the other way round, after a further vertex with its edge has come and gone. -/
def rewoven : Graph :=
  let run (g : Graph) (op : Operation) : Graph := g.applyAll (op.changes g)
  run (run (run (run (run (.empty false)
    (.update [(.tuple [.int 1, .int 2], .int 0), (.tuple [.int 4, .int 1], .int 0),
      (.tuple [.int 2, .int 3], .int 0), (.tuple [.int 3, .int 1], .int 0)]))
    (.removeVertex (.int 4)))
    (.delete (.tuple [.int 2, .int 1])))
    (.set (.tuple [.int 2, .int 1]) (.int 0)))
    (.addVertex .null)

/-- Edges that lead both ways between two vertices, and one more. -/
def thoroughfare : Graph :=
  (Graph.empty true).applyAll (Operation.changes (.empty true)
    (.update [(.tuple [.int 1, .int 2], .int 0), (.tuple [.int 3, .int 1], .int 0),
      (.tuple [.int 2, .int 1], .int 0)]))

theorem neighbors_agree_with_edges_rewoven :
    let view := (View.ofGraph rewoven).overlay [(.tuple [.int 2, .int 1], .int 7)]
    view.Reachable ∧ view.directed = false ∧
      (∃ neighbors, Blossom.neighborsOf view = .ok neighbors ∧
        neighbors.toList.map (List.map Fin.val) = [[2, 1], [2, 0], [1, 0], []] ∧
        neighbors.Simple ∧ ∀ i j, (neighbors.get i).count j =
          if (view.edge? (view.vertices.get i) (view.vertices.get j)).isSome then 1 else 0) ∧
      thoroughfare.Reachable ∧ .int 1 ∈ thoroughfare.vertices ∧ .int 2 ∈ thoroughfare.vertices ∧
      ∃ us vs, thoroughfare.neighborList (.int 1) = .ok us ∧
        thoroughfare.neighborList (.int 2) = .ok vs ∧ us = [.int 2, .int 3, .int 2] ∧
        vs.count (.int 1) = us.count (.int 2) ∧
        us.count (.int 2) = thoroughfare.edgeList.countP fun e => e.Between (.int 1) (.int 2) := by
  intro view
  have hrewoven : rewoven.Reachable :=
    (((((Graph.Reachable.empty false).whole _).whole _).whole _).whole _).whole _
  have reachable : view.Reachable := .overlay _ (.graph hrewoven)
  have reachable' : thoroughfare.Reachable := (Graph.Reachable.empty true).whole _
  have hfirst : .int 1 ∈ thoroughfare.vertices := by decide +kernel
  have hsecond : .int 2 ∈ thoroughfare.vertices := by decide +kernel
  obtain ⟨neighbors, hneighbors, simple, counts⟩ :=
    neighbors_agree_with_edges.1 view reachable rfl
  obtain ⟨us, vs, hus, hvs, each, edges⟩ :=
    neighbors_agree_with_edges.2 thoroughfare reachable' _ hfirst _ hsecond
  refine ⟨reachable, rfl, ⟨neighbors, hneighbors, ?_, simple, counts⟩, reachable', hfirst, hsecond,
    us, vs, hus, hvs, ?_, each, edges⟩
  · have hlists : (Blossom.neighborsOf view).toOption.map
        (fun t => t.toList.map (List.map Fin.val)) = some [[2, 1], [2, 0], [1, 0], []] := by
      decide +kernel
    rw [hneighbors] at hlists
    exact Option.some.inj hlists
  · have hlist : thoroughfare.neighborList (.int 1) = .ok [.int 2, .int 3, .int 2] := by rfl
    exact Except.ok.inj (hus.symm.trans hlist)

end OptimalMatching
