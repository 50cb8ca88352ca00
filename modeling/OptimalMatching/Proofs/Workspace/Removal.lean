import OptimalMatching.Proofs.Graph.Removal
import OptimalMatching.Proofs.Workspace.Sessions
/-!
# A vertex comes and goes

When no listener fails, a vertex is removed with the edges that touch it. The listeners of the graph
are told of every edge, in the order in which the vertex lists them, and then of the vertex.

A vertex that is new, gets edges and is removed again leaves no trace in the graph, not even in the
orders in which it lists things (`Workspace.session_visit`).
-/

namespace OptimalMatching

namespace Workspace

variable {O : Outside} {w : Workspace O} {id : Nat} {v : Vertex}

/-- Edges of a vertex are stored, and then the vertex is removed. -/
def departure (v : Vertex) (as : List (Edge × Weight)) : List Operation :=
  as.map (fun a => .set a.1.toKey a.2) ++ [.removeVertex v]

/-- A vertex comes, and edges that touch it, and then they go. -/
def visit (v : Vertex) (as : List (Edge × Weight)) : List Operation :=
  .addVertex v :: departure v as

/-- Edges of a new vertex come, and then they go with the vertex. -/
theorem session_departure (hid : id < w.graphs.length) {g : Graph} (wf : g.WellFormed)
    (o : g.InOrder) (hv : v ∉ g.vertices) {as : List (Edge × Weight)}
    (has : ∀ a ∈ as, a.1.Attaches v g.vertices) (grown : g.GrownBy v (w.graph id))
    (h : Unhindered (w.session id (departure v as)).calls) :
    (∀ result ∈ (w.session id (departure v as)).results, result = .ok ()) ∧
      (w.session id (departure v as)).workspace.graph id = g := by
  -- over the edges that are still to come, each of which only grows the graph
  induction as generalizing w with
  | nil =>
    obtain ⟨hremove, -⟩ := unhindered_append.1 h
    obtain ⟨hresult, hgraph⟩ := grown.removeVertex wf o hv
    refine ⟨List.forall_mem_singleton.2 ((result_operate hremove).trans hresult), ?_⟩
    exact (graph_operate hremove hid).trans hgraph
  | cons a as ih =>
    obtain ⟨hset, hrest⟩ := unhindered_append.1 h
    obtain ⟨ha, has⟩ := List.forall_mem_cons.1 has
    obtain ⟨hresult, hgrown⟩ := grown.set hv ha a.2
    have hgraph := graph_operate hset hid
    have hid' : id < (w.operate id (.set a.1.toKey a.2)).1.graphs.length := by
      rwa [length_graphs_operate]
    obtain ⟨hresults, hend⟩ := ih hid' has (hgraph ▸ hgrown) hrest
    exact ⟨List.forall_mem_cons.2 ⟨(result_operate hset).trans hresult, hresults⟩, hend⟩

/-- **A vertex that comes and goes** leaves every graph as it was. -/
theorem session_visit (hid : id < w.graphs.length) (reachable : (w.graph id).Reachable)
    (hv : v ∉ (w.graph id).vertices) {as : List (Edge × Weight)}
    (has : ∀ a ∈ as, a.1.Attaches v (w.graph id).vertices)
    (h : Unhindered (w.session id (visit v as)).calls) :
    (∀ result ∈ (w.session id (visit v as)).results, result = .ok ()) ∧
      ∀ other, (w.session id (visit v as)).workspace.graph other = w.graph other := by
  obtain ⟨hadd, hrest⟩ := unhindered_append.1 h
  have hnew : (w.graph id).addVertex v = ⟨[.addVertex v], .ok true⟩ :=
    if_neg fun hv' => hv (Graph.mem_vertices_iff.2 hv')
  have hresult : (w.operate id (.addVertex v)).2 = .ok () := by
    rw [result_operate hadd, Operation.edit, hnew]
    rfl
  have hgraph : (w.operate id (.addVertex v)).1.graph id = (w.graph id).apply (.addVertex v) := by
    rw [graph_operate hadd hid, Operation.changes, hnew]
    rfl
  have wf := reachable.wellFormed
  have o := reachable.inOrder
  have hid' : id < (w.operate id (.addVertex v)).1.graphs.length := by
    rwa [length_graphs_operate]
  obtain ⟨hresults, hend⟩ := session_departure hid' wf o hv has
    (hgraph ▸ Graph.GrownBy.addVertex wf o hv) hrest
  refine ⟨List.forall_mem_cons.2 ⟨hresult, hresults⟩, fun other => ?_⟩
  by_cases hother : id = other
  · subst hother
    exact hend
  · exact graph_session_ne w _ hother

/-- **Main result.** A vertex of a graph is removed with the edges that touch it, and with nothing
else. If no listener fails, each of them is told that the edges go, one after the other as the
vertex lists them, each edge once, and then that the vertex goes. And a vertex that comes, gets
edges, and goes leaves every graph as it was, in all its orders. -/
theorem vertex_goes_with_its_edges (hid : id < w.graphs.length)
    (reachable : (w.graph id).Reachable) :
    (∀ v ∈ (w.graph id).vertices, Unhindered (w.calls id (.removeVertex v)) →
      (w.operate id (.removeVertex v)).2 = .ok () ∧
      (w.graph id).WithoutVertex v ((w.operate id (.removeVertex v)).1.graph id) ∧
      (∀ other, id ≠ other → (w.operate id (.removeVertex v)).1.graph other = w.graph other) ∧
      ∃ es, (w.graph id).incident v = .ok es ∧ es.Nodup ∧
        (∀ e, e ∈ es ↔ e ∈ (w.graph id).edgeList ∧ e.touches v = true) ∧
        (w.calls id (.removeVertex v)).map Call.told =
          announcements (es.map .edgeRemoved ++ [.vertexRemoved v]) (w.listeners id)) ∧
    ∀ v, v ∉ (w.graph id).vertices → ∀ as : List (Edge × Weight),
      (∀ a ∈ as, a.1.Attaches v (w.graph id).vertices) →
      Unhindered (w.session id (visit v as)).calls →
      (∀ result ∈ (w.session id (visit v as)).results, result = .ok ()) ∧
      ∀ other, (w.session id (visit v as)).workspace.graph other = w.graph other := by
  have wf := reachable.wellFormed
  refine ⟨fun v hv h => ?_, fun v hv as has h => session_visit hid reachable hv has h⟩
  have hremove := wf.removeVertex_eq hv
  have hevents : ∀ es : List Edge,
      (es.map Change.removeEdge ++ [Change.removeVertex v]).filterMap Change.event? =
        es.map .edgeRemoved ++ [.vertexRemoved v] := fun es => by
    rw [List.filterMap_append, List.filterMap_map, ← List.filterMap_eq_map]
    rfl
  refine ⟨?_, ?_, fun other ne => graph_operate_ne w _ ne,
    (w.graph id).edgeList.filter fun e => e.touches v, ?_, ?_, fun e => List.mem_filter, ?_⟩
  · rw [result_operate h, Operation.edit, hremove]
  · rw [graph_operate h hid]
    exact wf.withoutVertex hv
  · exact wf.incident_eq_ok hv
  · exact (Graph.WellFormed.nodup_edgeList _).filter _
  · rw [told_calls h, Operation.changes, hremove, hevents]

/-- A directed graph with edges both ways between two vertices, and two recorders that listen. -/
def crossing : Workspace .plain :=
  let start := ((Workspace.empty.addGraph (.empty true)).1.addRecorder.1.addRecorder.1.register 0
    (.recorder 1)).register 0 (.recorder 0)
  (start.operate 0 (.update [(.tuple [.int 1, .int 2], .int 4), (.tuple [.int 3, .int 2], .int 5),
    (.tuple [.int 2, .int 1], .int 6), (.tuple [.int 3, .int 1], .int 7)])).1

/-- Edges to and from a new vertex, one of which is stored twice. -/
def newRoads : List (Edge × Weight) :=
  [(⟨.int 4, .int 1⟩, .int 8), (⟨.int 1, .int 4⟩, .int 9), (⟨.int 4, .int 1⟩, .int 10)]

theorem vertex_goes_with_its_edges_crossing :
    (crossing.graph 0).Reachable ∧
      (crossing.graph 0).WithoutVertex (.int 1)
        ((crossing.operate 0 (.removeVertex (.int 1))).1.graph 0) ∧
      ((crossing.operate 0 (.removeVertex (.int 1))).1.graph 0).edgeList = [⟨.int 3, .int 2⟩] ∧
      (crossing.calls 0 (.removeVertex (.int 1))).map Call.told =
        announcements [.edgeRemoved ⟨.int 1, .int 2⟩, .edgeRemoved ⟨.int 2, .int 1⟩,
          .edgeRemoved ⟨.int 3, .int 1⟩, .vertexRemoved (.int 1)] [.recorder 1, .recorder 0] ∧
      (crossing.session 0 (visit (.int 4) newRoads)).workspace.graph 0 = crossing.graph 0 ∧
      ((crossing.session 0 (visit (.int 4) newRoads)).workspace.recorded 0).drop 7 =
        [.vertexAdded (.int 4), .edgeAdded ⟨.int 4, .int 1⟩, .edgeAdded ⟨.int 1, .int 4⟩,
          .edgeRemoved ⟨.int 4, .int 1⟩, .edgeRemoved ⟨.int 1, .int 4⟩,
          .vertexRemoved (.int 4)] := by
  have start : ((Workspace.empty : Workspace .plain).addGraph (.empty true)).1.Reachable :=
    .addGraph .empty (rfl : Graph.ofEntries true [] = .ok (.empty true))
  have reachable : crossing.Reachable :=
    .operate 0 _ (.register 0 (.register 0 (.addRecorder (.addRecorder start))
      (show 1 < 2 by decide)) (show 0 < 2 by decide))
  obtain ⟨hremove, hvisit⟩ :=
    vertex_goes_with_its_edges (show 0 < crossing.graphs.length by decide) (reachable.graphs 0)
  have recorders : ∀ l ∈ crossing.listeners 0, ∃ r, l = .recorder r := by
    have hlisteners : crossing.listeners 0 = [.recorder 1, .recorder 0] := by decide +kernel
    simp [hlisteners]
  obtain ⟨-, hleft, -, es, hes, -, -, htold⟩ := hremove (.int 1) (by decide +kernel)
    (unhindered_append.1 (unhindered_of_recorders recorders [.removeVertex (.int 1)])).1
  obtain rfl : es = [⟨.int 1, .int 2⟩, ⟨.int 2, .int 1⟩, ⟨.int 3, .int 1⟩] :=
    Except.ok.inj (hes.symm.trans rfl)
  have attached : ∀ a ∈ newRoads, a.1.Attaches (.int 4) (crossing.graph 0).vertices := by
    unfold Edge.Attaches
    decide +kernel
  obtain ⟨-, hrestored⟩ := hvisit (.int 4) (by decide +kernel) newRoads attached
    (unhindered_of_recorders recorders _)
  exact ⟨reachable.graphs 0, hleft, by decide +kernel, htold, hrestored 0, by decide +kernel⟩

end Workspace

end OptimalMatching
