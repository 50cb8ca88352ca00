import OptimalMatching.Proofs.Graph.Neighbors
import OptimalMatching.Proofs.Graph.Reachable
/-!
# A graph is what it lists

The tables of a graph are kept in order, and not only the outer ones: the table of neighbors holds
for each vertex the edges that lead from it, and it holds them in the order of all edges
(`Graph.InOrder`). Every change that fits keeps it so, as new edges go to the end of all lists that
they are in, and edges that go leave the others where they are.

So nothing of its history is left in a graph but the order of its vertices and the order of its
edges: graphs that list the same vertices and the same weighted edges are the same graph
(`WellFormed.eq_of_lists`).
-/

namespace OptimalMatching

namespace OrderedMap

variable {α β : Type} [DecidableEq α]

theorem entries_eq_filterMap (m : OrderedMap α β) :
    m.entries = m.keys.filterMap fun a => (m.get? a).map (a, ·) := by
  unfold keys
  rw [List.filterMap_map]
  conv_lhs => rw [← List.filterMap_some (l := m.entries)]
  refine List.filterMap_congr fun e he => ?_
  show some e = (m.get? e.1).map (e.1, ·)
  rw [get?_eq_some_iff.2 he]
  rfl

/-- Maps with the same keys in the same order are equal if they have the same values. -/
theorem eq_of_get? {m m' : OrderedMap α β} (keys : m.keys = m'.keys)
    (values : ∀ a ∈ m.keys, m.get? a = m'.get? a) : m = m' := by
  refine OrderedMap.ext ?_
  rw [m.entries_eq_filterMap, m'.entries_eq_filterMap, ← keys]
  exact List.filterMap_congr fun a ha => by rw [values a ha]

end OrderedMap

namespace Graph

variable {g h : Graph} {e f : Edge} {u v : Vertex} {w : Weight} {c : Change} {cs : List Change}

/-! ## Lists and tables -/

/-- The edges that lead from a vertex, with the vertices to which they lead, in order. -/
def outgoing (g : Graph) (v : Vertex) : List (Vertex × Edge) :=
  (g.edgeList.filter fun e => g.Leads e v).map fun e => (e.across v, e)

/-- The neighbors of a vertex are kept in the order of the edges that lead to them. -/
structure InOrder (g : Graph) : Prop where
  entries_eq : ∀ {v neighbors}, g.adjacency.get? v = some neighbors →
    neighbors.entries = g.outgoing v

/-- **Graphs that list the same** vertices and the same edges are equal. -/
theorem WellFormed.eq_of_lists (wg : g.WellFormed) (wh : h.WellFormed) (og : g.InOrder)
    (oh : h.InOrder) (directed : g.directed = h.directed) (vertices : g.vertices = h.vertices)
    (edges : g.edges = h.edges) : g = h := by
  have hlists : g.edgeList = h.edgeList := congrArg OrderedMap.keys edges
  refine eq_of_tables directed edges ?_ ?_
  · refine OrderedMap.eq_of_get? vertices fun v hv => ?_
    obtain ⟨ng, hng⟩ := exists_neighbors hv
    obtain ⟨nh, hnh⟩ := exists_neighbors (vertices ▸ hv : v ∈ h.vertices)
    have hsame : g.outgoing v = h.outgoing v := by
      unfold outgoing
      rw [hlists]
      exact congrArg (List.map _)
        (List.filter_congr fun e _ => decide_eq_decide.2 (leads_congr directed))
    have hentries : ng.entries = nh.entries :=
      (og.entries_eq hng).trans (hsame.trans (oh.entries_eq hnh).symm)
    rw [hng, hnh, OrderedMap.ext hentries]
  · have hkeys : g.incidence.keys = h.incidence.keys :=
      wg.incidence_keys.trans (vertices.trans wh.incidence_keys.symm)
    refine OrderedMap.eq_of_get? hkeys fun v hv => ?_
    have hv : v ∈ g.vertices := wg.incidence_keys ▸ hv
    rw [wg.incident_eq hv, wh.incident_eq (vertices ▸ hv), hlists]

/-! ## One change -/

/-- A change of the neighbors on the way along an edge is one at each vertex from which it leads. -/
theorem get?_modify_leads (g : Graph) (change : Vertex → OrderedMap Vertex Edge →
      OrderedMap Vertex Edge) (ne : e.source ≠ e.target) (v : Vertex) :
    (let forward := g.adjacency.modify e.source (change e.target)
      if g.directed then forward else forward.modify e.target (change e.source)).get? v =
      if g.Leads e v then (g.adjacency.get? v).map (change (e.across v))
      else g.adjacency.get? v := by
  by_cases hs : e.source = v
  · have ht : e.target ≠ v := fun ht => ne (hs.trans ht.symm)
    rcases Bool.eq_false_or_eq_true g.directed with hd | hd <;>
      simp [Leads, Edge.across, OrderedMap.get?_modify, hd, hs, ht]
  · rcases Bool.eq_false_or_eq_true g.directed with hd | hd <;>
      simp [Leads, Edge.across, OrderedMap.get?_modify, hd, hs]

namespace InOrder

theorem addVertex (o : g.InOrder) (wf : g.WellFormed) (fits : (Change.addVertex v).Fits g) :
    (g.apply (.addVertex v)).InOrder := by
  refine ⟨fun {a neighbors} hget => ?_⟩
  show neighbors.entries = g.outgoing a
  change (g.adjacency.insert v .empty).get? a = some neighbors at hget
  rw [OrderedMap.get?_insert] at hget
  split_ifs at hget with hva
  · subst hva
    obtain rfl := Option.some.inj hget
    unfold outgoing
    rw [List.filter_eq_nil_iff.2]
    · rfl
    · intro e he hev
      exact fits (wf.mem_of_touches he (of_decide_eq_true hev).touches)
  · exact o.entries_eq hget

theorem removeVertex (o : g.InOrder) : (g.apply (.removeVertex v)).InOrder := by
  refine ⟨fun {a neighbors} hget => ?_⟩
  change (g.adjacency.erase v).get? a = some neighbors at hget
  rw [OrderedMap.get?_erase] at hget
  split_ifs at hget
  exact o.entries_eq hget

theorem addEdge (o : g.InOrder) (wf : g.WellFormed) (fits : (Change.addEdge e w).Fits g) :
    (g.apply (.addEdge e w)).InOrder := by
  have wf' := wf.addEdge fits
  have hnew := wf.notMem_of_fits fits
  have hedges : (g.apply (.addEdge e w)).edgeList = g.edgeList ++ [e] := edgeList_addEdge hnew
  refine ⟨fun {a neighbors} hget => ?_⟩
  have hget : (g.linked e).get? a = some neighbors := hget
  unfold linked at hget
  rw [get?_modify_leads g (fun v m => m.insert v e) fits.1] at hget
  have houtgoing : (g.apply (.addEdge e w)).outgoing a =
      g.outgoing a ++ if g.Leads e a then [(e.across a, e)] else [] := by
    show List.map _ (List.filter (fun f => g.Leads f a) _) = _
    rw [hedges, List.filter_append, List.map_append]
    split_ifs with hea <;> simp [outgoing, hea]
  rw [houtgoing]
  split_ifs at hget ⊢ with hea
  · obtain ⟨old, hold, rfl⟩ := Option.map_eq_some_iff.1 hget
    -- The other end is not a neighbor yet, so the edge comes last, as it does in the list of edges.
    have hfresh : e.across a ∉ old.entries.map Prod.fst := by
      rw [o.entries_eq hold]
      intro hmem
      simp only [outgoing, List.map_map, List.mem_map, List.mem_filter, decide_eq_true_eq,
        Function.comp_def] at hmem
      obtain ⟨f, ⟨hf, hfa⟩, hacross⟩ := hmem
      have hfe : f = e := wf'.eq_of_across (by simp [hedges]) (by simp [hedges, hf]) hea hfa hacross
      exact hnew (hfe ▸ hf)
    show Entries.put _ _ old.entries = _
    rw [Entries.put_of_notMem hfresh, o.entries_eq hold]
  · rw [List.append_nil, o.entries_eq hget]

theorem removeEdge (o : g.InOrder) (wf : g.WellFormed) (fits : (Change.removeEdge e).Fits g) :
    (g.apply (.removeEdge e)).InOrder := by
  have houtgoing : ∀ a, (g.apply (.removeEdge e)).outgoing a =
      ((g.edgeList.filter fun f => g.Leads f a).filter (· ≠ e)).map fun f => (f.across a, f) := by
    intro a
    show List.map _ (List.filter (fun f => g.Leads f a) _) = _
    rw [edgeList_removeEdge, List.filter_comm]
  refine ⟨fun {a neighbors} hget => ?_⟩
  have hget : (g.unlinked e).get? a = some neighbors := hget
  unfold unlinked at hget
  rw [get?_modify_leads g (fun v m => m.erase v) (wf.loopless fits)] at hget
  rw [houtgoing]
  split_ifs at hget with hea
  · obtain ⟨old, hold, rfl⟩ := Option.map_eq_some_iff.1 hget
    show old.entries.filter _ = _
    rw [o.entries_eq hold, outgoing, List.filter_map]
    refine congrArg (List.map _) (List.filter_congr fun f hf => ?_)
    obtain ⟨hf, hfa⟩ := List.mem_filter.1 hf
    -- Among the edges that lead away from here, an edge is determined by its other end.
    have hiff : f.across a = e.across a ↔ f = e :=
      ⟨wf.eq_of_across fits hf hea (of_decide_eq_true hfa), fun heq => heq ▸ rfl⟩
    simp [hiff]
  · rw [List.filter_eq_self.2]
    · exact o.entries_eq hget
    · intro f hf
      rw [decide_eq_true_eq]
      rintro rfl
      exact hea (of_decide_eq_true (List.mem_filter.1 hf).2)

theorem reweigh (o : g.InOrder) : (g.apply (.reweigh e w)).InOrder := by
  refine ⟨fun {a neighbors} hget => ?_⟩
  unfold outgoing
  rw [edgeList_reweigh]
  exact o.entries_eq hget

/-- **A change that fits** keeps the neighbors in order. -/
theorem apply (o : g.InOrder) (wf : g.WellFormed) (fits : c.Fits g) : (g.apply c).InOrder := by
  cases c with
  | addVertex v => exact o.addVertex wf fits
  | removeVertex v => exact o.removeVertex
  | addEdge e w => exact o.addEdge wf fits
  | removeEdge e => exact o.removeEdge wf fits
  | reweigh e w => exact o.reweigh

/-! ## Many changes -/

theorem applyAll (o : g.InOrder) (wf : g.WellFormed) (fits : g.AllFit cs) :
    (g.applyAll cs).InOrder := by
  induction cs generalizing g with
  | nil => exact o
  | cons c cs ih => exact ih (o.apply wf fits.1) (wf.apply fits.1) fits.2

theorem empty (directed : Bool) : (Graph.empty directed).InOrder := by
  refine ⟨fun {v neighbors} hget => ?_⟩
  cases hget

theorem copy (g : Graph) : g.copy.InOrder := by
  have fits := (addVertices_spec (g := .empty g.directed) g.adjacency.nodup_keys fun _ _ hv => by
    cases hv).1
  have wf := (WellFormed.empty g.directed).applyAll fits
  exact ((empty g.directed).applyAll (.empty _) fits).applyAll wf (wf.allFit_update g.entries)

end InOrder

/-- **In every graph that operations lead to** the neighbors are in order. -/
theorem Reachable.inOrder (h : g.Reachable) : g.InOrder := by
  induction h with
  | empty directed => exact .empty directed
  | operate op count reachable ih =>
    exact ih.applyAll reachable.wellFormed ((reachable.wellFormed.allFit op).take count)
  | @copy g _ _ => exact .copy g

end Graph

end OptimalMatching
