import OptimalMatching.Assignment.Problem
import OptimalMatching.Blossom.MaximumMatching
import OptimalMatching.Proofs.Graph.Listing
import OptimalMatching.Proofs.Graph.Pairs
import OptimalMatching.Proofs.Workspace.Listeners
/-!
# Copies

A copy is built anew: first the vertices, in order, and then the edges with their weights, in order.
Its tables come about in another way than those of the graph, in which edges have gone and come back
since.

**Nothing is refused.** The ends of every edge are there when the edge is stored, and no edge is in
the way of another one, so storing the edges adds them one after the other (`Graph.update_new`).

**The same graph.** The copy lists the vertices and the edges of the graph in their orders. As a
graph is what it lists, the copy and the graph are equal in all their tables
(`Graph.Reachable.copy_eq`), and nothing that reads them can tell them apart
(`Graph.copy_is_same`).
-/

namespace OptimalMatching

namespace Graph

variable {g : Graph}

/-! ## Storing new edges -/

/-- **New edges** that are not in each other's way are added one after the other. -/
theorem update_new {as : List (Edge × Weight)} (wf : g.WellFormed)
    (fits : ∀ a ∈ as, (Change.addEdge a.1 a.2).Fits g)
    (distinct : as.Pairwise fun a b => ¬ g.Joins a.1 b.1.source b.1.target) :
    g.update (as.map fun a => (a.1.toKey, a.2)) = ⟨as.map fun a => .addEdge a.1 a.2, .ok ()⟩ ∧
      (g.applyAll (as.map fun a => .addEdge a.1 a.2)).vertices = g.vertices ∧
        (g.applyAll (as.map fun a => .addEdge a.1 a.2)).edges.entries = g.edges.entries ++ as := by
  induction as generalizing g with
  | nil => exact ⟨rfl, rfl, (List.append_nil _).symm⟩
  | cons a as ih =>
    have hfits := fits a List.mem_cons_self
    obtain ⟨hfree, distinct⟩ := List.pairwise_cons.1 distinct
    have hentries : (g.apply (.addEdge a.1 a.2)).edges.entries = g.edges.entries ++ [a] :=
      Entries.put_of_notMem (wf.notMem_of_fits hfits)
    -- The edges that are left still fit: the new one is not found in their place.
    have hrest : ∀ b ∈ as, (Change.addEdge b.1 b.2).Fits (g.apply (.addEdge a.1 a.2)) := by
      intro b hb
      obtain ⟨ne, hs, ht, hnone⟩ := fits b (List.mem_cons_of_mem _ hb)
      refine ⟨ne, ?_, ?_, ?_⟩
      · rwa [vertices_addEdge]
      · rwa [vertices_addEdge]
      · rw [edge?_addEdge hfits, if_neg (hfree b hb), hnone]
    obtain ⟨hupdate, hvertices, hedges⟩ := ih (wf.addEdge hfits) hrest distinct
    have hset : g.set a.1.toKey a.2 = ⟨[.addEdge a.1 a.2], .ok ()⟩ := by
      unfold set
      rw [put_of_fits hfits]
      rfl
    refine ⟨?_, ?_, ?_⟩
    · have hok : (g.set a.1.toKey a.2).result = .ok () := congrArg Edit.result hset
      rw [List.map_cons, update_cons (a := (a.1.toKey, a.2)) hok, hset]
      show Edit.mk ([_] ++ ((g.apply (.addEdge a.1 a.2)).update _).changes)
        ((g.apply (.addEdge a.1 a.2)).update _).result = _
      rw [hupdate]
      rfl
    · exact hvertices.trans vertices_addEdge
    · rw [List.map_cons, applyAll_cons, hedges, hentries, List.append_assoc]
      rfl

/-! ## Copying -/

/-- The vertices of a graph, without its edges. -/
def bare (g : Graph) : Graph := (empty g.directed).applyAll (g.vertices.map .addVertex)

/-- The vertices are there, and nothing else. -/
theorem bare_spec (g : Graph) : g.bare.WellFormed ∧ g.bare.directed = g.directed ∧
    g.bare.vertices = g.vertices ∧ g.bare.edges.entries = [] ∧ ∀ u v, g.bare.edge? u v = none := by
  obtain ⟨fits, hvertices, hfound⟩ :=
    addVertices_spec (g := .empty g.directed) g.adjacency.nodup_keys fun _ _ hv => by cases hv
  have hpairs := pairs_addVertices (.empty g.directed) g.vertices
  exact ⟨(WellFormed.empty g.directed).applyAll fits, congrArg PairMap.directed hpairs, hvertices,
    congrArg PairMap.entries hpairs, hfound⟩

/-- The edges of a graph are stored in its copy one after the other. -/
theorem WellFormed.update_bare (wf : g.WellFormed) :
    g.bare.update g.entries = ⟨g.edges.entries.map fun a => .addEdge a.1 a.2, .ok ()⟩ ∧
      g.copy.vertices = g.vertices ∧ g.copy.edges = g.edges := by
  obtain ⟨wb, hdirected, hvertices, hentries, hnone⟩ := g.bare_spec
  have fits : ∀ a ∈ g.edges.entries, (Change.addEdge a.1 a.2).Fits g.bare := by
    intro a ha
    have he : a.1 ∈ g.edgeList := List.mem_map_of_mem ha
    exact ⟨wf.loopless he, hvertices ▸ wf.source_mem he, hvertices ▸ wf.target_mem he, hnone _ _⟩
  have distinct : g.edges.entries.Pairwise fun a b =>
      ¬ g.bare.Joins a.1 b.1.source b.1.target :=
    wf.pairs_distinct.imp fun {a b} hnot hjoins => hnot ((joins_congr hdirected).1 hjoins)
  obtain ⟨hupdate, hvertices', hedges⟩ := update_new wb fits distinct
  have hcopy : g.copy = g.bare.applyAll (g.edges.entries.map fun a => .addEdge a.1 a.2) :=
    congrArg (fun edit : Edit Unit => edit.after g.bare) hupdate
  refine ⟨hupdate, ?_, OrderedMap.ext ?_⟩
  · rw [hcopy, hvertices', hvertices]
  · rw [hcopy, hedges, hentries, List.nil_append]

theorem directed_copy (g : Graph) : g.copy.directed = g.directed :=
  (directed_applyAll g.bare _).trans g.bare_spec.2.1

/-- **A copy** is the graph. -/
theorem Reachable.copy_eq (h : g.Reachable) : g.copy = g := by
  obtain ⟨-, hvertices, hedges⟩ := h.wellFormed.update_bare
  exact (WellFormed.copy g).eq_of_lists h.wellFormed (.copy g) h.inOrder (directed_copy g)
    hvertices hedges

/-- **A copy is the same**, whatever has been done to the graph that is copied. No edge is refused
when it is stored in the copy. The copy has the vertices, the edges with their weights, and for each
vertex the edges that touch it, all in the orders of the graph. So a vertex has the same neighbors,
and both kinds of matching come to the same, with the same reports. Nobody listens to the copy, and
the graphs that were there are as they were, with their listeners. -/
theorem copy_is_same (h : g.Reachable) :
    (g.bare.update g.entries).result = .ok () ∧ g.copy = g ∧
    (g.copy.vertices = g.vertices ∧ g.copy.edges.entries = g.edges.entries ∧
      (∀ v, g.copy.incident v = g.incident v) ∧ ∀ v, g.copy.neighborList v = g.neighborList v) ∧
    ((∀ first second, minimumPerfectMatching (.ofGraph g.copy) first second =
        minimumPerfectMatching (.ofGraph g) first second) ∧
      maximumMatching (.ofGraph g.copy) = maximumMatching (.ofGraph g)) ∧
    ∀ {O : Outside} (w : Workspace O),
      (w.addGraph g.copy).1.graph w.graphs.length = g ∧
      (w.addGraph g.copy).1.listeners w.graphs.length = [] ∧
      ∀ other, other ≠ w.graphs.length →
        (w.addGraph g.copy).1.graph other = w.graph other ∧
        (w.addGraph g.copy).1.listeners other = w.listeners other := by
  refine ⟨congrArg Edit.result h.wellFormed.update_bare.1, h.copy_eq, ?_, ?_, fun {O} w => ?_⟩
  · rw [h.copy_eq]
    exact ⟨rfl, rfl, fun _ => rfl, fun _ => rfl⟩
  · rw [h.copy_eq]
    exact ⟨fun _ _ => rfl, rfl⟩
  · refine ⟨?_, ?_, fun other ne => ⟨?_, Workspace.listeners_addGraph ..⟩⟩
    · rw [Workspace.graph_addGraph, if_pos rfl, h.copy_eq]
    · exact (Workspace.listeners_addGraph ..).trans (Workspace.listeners_eq_nil (Nat.le_refl _))
    · rw [Workspace.graph_addGraph, if_neg ne]

/-- In a directed graph an edge has gone and come back the other way round, and a vertex has gone
and come back with an edge. -/
def rebuilt : Graph :=
  let run (g : Graph) (op : Operation) : Graph := g.applyAll (op.changes g)
  run (run (run (run (run (.empty true)
    (.update [(.tuple [.int 1, .int 2], .int 4), (.tuple [.int 2, .int 3], .int 5),
      (.tuple [.int 3, .int 1], .int 6)]))
    (.delete (.tuple [.int 1, .int 2])))
    (.set (.tuple [.int 2, .int 1]) (.int 7)))
    (.removeVertex (.int 3)))
    (.addEdge (.int 3) (.int 2) (.int 8))

theorem copy_is_same_rebuilt :
    rebuilt.Reachable ∧ rebuilt.copy = rebuilt ∧
      rebuilt.copy.edges.entries.map Prod.fst = [⟨.int 2, .int 1⟩, ⟨.int 3, .int 2⟩] ∧
      rebuilt.copy.neighborList (.int 2) = .ok [.int 1, .int 3] ∧
      maximumMatching (.ofGraph rebuilt.copy) = ⟨[], .error .directedGraph⟩ ∧
      ((Workspace.empty : Workspace .plain).addGraph rebuilt.copy).1.listeners 0 = [] := by
  have reachable : rebuilt.Reachable :=
    (((((Reachable.empty true).whole _).whole _).whole _).whole _).whole _
  obtain ⟨-, hcopy, ⟨-, hentries, -, hneighbors⟩, ⟨-, hmaximum⟩, hadded⟩ := copy_is_same reachable
  refine ⟨reachable, hcopy, ?_, ?_, ?_, (hadded .empty).2.1⟩
  · rw [hentries]
    decide +kernel
  · rw [hneighbors]
    rfl
  · rw [hmaximum]
    rfl

end Graph

end OptimalMatching
