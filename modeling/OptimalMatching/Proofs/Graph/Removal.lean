import OptimalMatching.Proofs.Graph.Listing
import OptimalMatching.Proofs.Graph.Vertices
/-!
# Removing a vertex

A vertex goes with the edges that touch it, and nothing else does (`Graph.WithoutVertex`). The
removed edges are those in the list of the vertex, which is emptied by this very removal, so it is
read once, at the beginning.

**Coming and going.** A new vertex goes to the end of the vertices, and edges that touch it can be
stored, which go to the end of the edges (`Graph.GrownBy`). When the vertex is removed, the vertices
and the edges are those from before in their orders, and as a graph is what it lists, the graph is
the one from before (`Graph.GrownBy.removeVertex`).
-/

namespace OptimalMatching

/-- An edge joins a vertex to one of some others, in either direction. -/
def Edge.Attaches (e : Edge) (v : Vertex) (others : List Vertex) : Prop :=
  e.source = v ∧ e.target ∈ others ∨ e.target = v ∧ e.source ∈ others

namespace Graph

variable {g g' : Graph} {e : Edge} {u v : Vertex} {w : Weight}

/-- What is left of a graph without a vertex. -/
structure WithoutVertex (g : Graph) (v : Vertex) (after : Graph) : Prop where
  directed : after.directed = g.directed
  vertices : after.vertices = g.vertices.filter (· ≠ v)
  /-- The other edges keep their weights and their order. -/
  entries : after.edges.entries = g.edges.entries.filter fun a => !a.1.touches v
  edge? : ∀ a b, after.edge? a b = if a = v ∨ b = v then none else g.edge? a b
  /-- Every other vertex loses the edges that join it to the vertex, in either direction. -/
  incident : ∀ u, u ≠ v → after.incident u =
    (g.incident u).map (List.filter fun e => e ≠ ⟨u, v⟩ ∧ e ≠ ⟨v, u⟩)

/-- A graph with a new vertex at the end and with edges that touch it. -/
structure GrownBy (g : Graph) (v : Vertex) (g' : Graph) : Prop where
  wellFormed : g'.WellFormed
  inOrder : g'.InOrder
  directed : g'.directed = g.directed
  vertices : g'.vertices = g.vertices ++ [v]
  /-- The edges that do not touch the vertex are those from before. -/
  entries : (g'.edges.entries.filter fun a => !a.1.touches v) = g.edges.entries

/-! ## One removal -/

/-- The other edges of a neighbor are those that do not touch the vertex. -/
theorem touches_iff_of_touches (ne : u ≠ v) (hu : e.touches u = true) :
    e.touches v = true ↔ e = ⟨u, v⟩ ∨ e = ⟨v, u⟩ := by
  obtain ⟨s, t⟩ := e
  simp only [touches_iff, Edge.mk.injEq] at hu ⊢
  rcases hu with rfl | rfl
  · simp [ne]
  · simp [ne, or_comm]

namespace WellFormed

theorem after_removeVertex (h : g.WellFormed) (hv : v ∈ g.vertices) :
    (g.removeVertex v).after g = (g.applyAll
      ((g.edgeList.filter fun e => e.touches v).map .removeEdge)).apply (.removeVertex v) := by
  rw [Edit.after, h.removeVertex_eq hv, applyAll_append]
  rfl

theorem vertices_after_removeVertex (h : g.WellFormed) (hv : v ∈ g.vertices) :
    ((g.removeVertex v).after g).vertices = g.vertices.filter (· ≠ v) := by
  rw [h.after_removeVertex hv, vertices_removeVertex, vertices_removeEdges]

/-- The edges that do not touch the vertex keep their weights and their order. -/
theorem entries_after_removeVertex (h : g.WellFormed) (hv : v ∈ g.vertices) :
    ((g.removeVertex v).after g).edges.entries =
      g.edges.entries.filter fun a => !a.1.touches v := by
  rw [h.after_removeVertex hv]
  refine (entries_removeEdges g _).trans (List.filter_congr fun a ha => ?_)
  have hmem : a.1 ∈ g.edgeList := List.mem_map_of_mem ha
  cases htouches : a.1.touches v <;> simp [hmem, htouches]

theorem edgeList_after_removeVertex (h : g.WellFormed) (hv : v ∈ g.vertices) :
    ((g.removeVertex v).after g).edgeList = g.edgeList.filter fun e => !e.touches v := by
  show List.map _ _ = List.filter _ (List.map _ _)
  rw [h.entries_after_removeVertex hv, List.filter_map]
  rfl

theorem directed_after_removeVertex (g : Graph) (v : Vertex) :
    ((g.removeVertex v).after g).directed = g.directed :=
  directed_applyAll g _

theorem wellFormed_after_removeVertex (h : g.WellFormed) :
    ((g.removeVertex v).after g).WellFormed :=
  h.applyAll h.allFit_removeVertex

/-- No edge leads to or from the vertex, and between others there are the edges from before. -/
theorem edge?_after_removeVertex (h : g.WellFormed) (hv : v ∈ g.vertices) (a b : Vertex) :
    ((g.removeVertex v).after g).edge? a b = if a = v ∨ b = v then none else g.edge? a b := by
  refine Option.ext fun e => ?_
  rw [h.wellFormed_after_removeVertex.edge?_iff, h.edgeList_after_removeVertex hv, List.mem_filter,
    joins_congr (directed_after_removeVertex g v)]
  split_ifs with hab
  · -- an edge that joins the vertex to another touches it, and so it has gone
    refine iff_of_false ?_ (by simp)
    rintro ⟨⟨-, he⟩, hj⟩
    have htouches := (touches_iff_of_joins hj).2 (hab.imp Eq.symm Eq.symm)
    simp [htouches] at he
  · rw [h.edge?_iff]
    refine and_congr_left fun hj => and_iff_left ?_
    have htouches := mt (touches_iff_of_joins hj).1 fun hv => hab (hv.imp Eq.symm Eq.symm)
    simpa using htouches

theorem incident_after_removeVertex (h : g.WellFormed) (hv : v ∈ g.vertices) (ne : u ≠ v) :
    ((g.removeVertex v).after g).incident u =
      (g.incident u).map (List.filter fun e => e ≠ ⟨u, v⟩ ∧ e ≠ ⟨v, u⟩) := by
  have wf : ((g.removeVertex v).after g).WellFormed := h.wellFormed_after_removeVertex
  have hvertices := h.vertices_after_removeVertex hv
  by_cases hu : u ∈ g.vertices
  · have hu' : u ∈ ((g.removeVertex v).after g).vertices := by
      rw [hvertices]
      exact List.mem_filter.2 ⟨hu, by simpa using ne⟩
    rw [wf.incident_eq_ok hu', h.incident_eq_ok hu, h.edgeList_after_removeVertex hv,
      List.filter_comm]
    refine congrArg Except.ok (List.filter_congr fun e he => ?_)
    have htouches := touches_iff_of_touches ne (List.mem_filter.1 he).2
    rw [Bool.eq_iff_iff, Bool.not_eq_true', decide_eq_true_eq, ← not_or, ← htouches,
      Bool.not_eq_true]
  · have hu' : u ∉ ((g.removeVertex v).after g).vertices := by
      rw [hvertices]
      exact fun hmem => hu (List.mem_filter.1 hmem).1
    rw [wf.incident_eq_error hu', h.incident_eq_error hu]
    rfl

/-- **A vertex goes alone**, but for the edges that touch it. -/
theorem withoutVertex (h : g.WellFormed) (hv : v ∈ g.vertices) :
    g.WithoutVertex v ((g.removeVertex v).after g) where
  directed := directed_after_removeVertex g v
  vertices := h.vertices_after_removeVertex hv
  entries := h.entries_after_removeVertex hv
  edge? := h.edge?_after_removeVertex hv
  incident _ ne := h.incident_after_removeVertex hv ne

end WellFormed

/-! ## Coming and going -/

namespace GrownBy

theorem addVertex (wf : g.WellFormed) (o : g.InOrder) (hv : v ∉ g.vertices) :
    g.GrownBy v (g.apply (.addVertex v)) where
  wellFormed := wf.addVertex hv
  inOrder := o.addVertex wf hv
  directed := rfl
  vertices := vertices_addVertex hv
  entries := by
    refine List.filter_eq_self.2 fun a ha => ?_
    rw [Bool.not_eq_true', Bool.eq_false_iff]
    exact fun htouches => hv (wf.mem_of_touches (List.mem_map_of_mem ha) htouches)

/-- A change that fits and that concerns an edge of the vertex is one of those meant. -/
theorem apply {c : Change} (h : g.GrownBy v g') (fits : c.Fits g')
    (vertices : (g'.apply c).vertices = g'.vertices)
    (entries : ((g'.apply c).edges.entries.filter fun a => !a.1.touches v) =
      g'.edges.entries.filter fun a => !a.1.touches v) : g.GrownBy v (g'.apply c) where
  wellFormed := h.wellFormed.apply fits
  inOrder := h.inOrder.apply h.wellFormed fits
  directed := (directed_apply g' c).trans h.directed
  vertices := vertices.trans h.vertices
  entries := entries.trans h.entries

theorem reweigh (h : g.GrownBy v g') (he : e ∈ g'.edgeList) (hv : e.touches v = true)
    (w : Weight) : g.GrownBy v (g'.apply (.reweigh e w)) := by
  refine h.apply he rfl ?_
  show ((g'.edges.entries.map _).filter _) = _
  rw [List.filter_map]
  refine (List.map_congr_left fun a ha => ?_).trans (List.map_id _)
  have hne : a.1 ≠ e := fun heq => by
    have htouches := (List.mem_filter.1 ha).2
    simp [heq, hv] at htouches
  exact Prod.ext rfl (if_neg hne)

theorem addEdge (h : g.GrownBy v g') (fits : (Change.addEdge e w).Fits g')
    (hv : e.touches v = true) : g.GrownBy v (g'.apply (.addEdge e w)) := by
  refine h.apply fits vertices_addEdge ?_
  have hentries : (g'.apply (.addEdge e w)).edges.entries = g'.edges.entries ++ [(e, w)] :=
    Entries.put_of_notMem (h.wellFormed.notMem_of_fits fits)
  rw [hentries, List.filter_append]
  simp [hv]

/-- An edge of the vertex is never refused. -/
theorem set (h : g.GrownBy v g') (hv : v ∉ g.vertices) (he : e.Attaches v g.vertices)
    (w : Weight) :
    (g'.set e.toKey w).result = .ok () ∧ g.GrownBy v ((g'.set e.toKey w).after g') := by
  have htouches : e.touches v = true := touches_iff.2 (he.imp And.left And.left)
  have hmem : ∀ u, u = v ∨ u ∈ g.vertices → u ∈ g'.vertices := by
    intro u hu
    rw [h.vertices]
    simpa [or_comm] using hu
  have hends : e.source ≠ e.target ∧ e.source ∈ g'.vertices ∧ e.target ∈ g'.vertices := by
    rcases he with ⟨rfl, ht⟩ | ⟨rfl, hs⟩
    · exact ⟨fun heq => hv (heq ▸ ht), hmem _ (.inl rfl), hmem _ (.inr ht)⟩
    · exact ⟨fun heq => hv (heq ▸ hs), hmem _ (.inr hs), hmem _ (.inl rfl)⟩
  unfold Graph.set
  cases hfound : g'.edge? e.source e.target with
  | some stored =>
    obtain ⟨hstored, hjoins⟩ := h.wellFormed.edge?_iff.1 hfound
    have hsame : stored.touches v = true :=
      (touches_iff_of_joins hjoins).2 ((touches_iff.1 htouches).imp Eq.symm Eq.symm)
    rw [show e.toKey = Edge.toKey ⟨e.source, e.target⟩ from rfl,
      h.wellFormed.put_of_joins hstored hjoins w]
    exact ⟨rfl, h.reweigh hstored hsame w⟩
  | none =>
    -- The edge is new, and both of its ends are there.
    have fits : (Change.addEdge e w).Fits g' := ⟨hends.1, hends.2.1, hends.2.2, hfound⟩
    rw [put_of_fits fits]
    exact ⟨rfl, h.addEdge fits htouches⟩

/-- **Without the vertex** the graph is the one from before. -/
theorem removeVertex (h : g.GrownBy v g') (wf : g.WellFormed) (o : g.InOrder)
    (hv : v ∉ g.vertices) :
    (g'.removeVertex v).result = .ok () ∧ (g'.removeVertex v).after g' = g := by
  have hmem : v ∈ g'.vertices := by simp [h.vertices]
  have hleft := h.wellFormed.withoutVertex hmem
  have fits : g'.AllFit (g'.removeVertex v).changes := h.wellFormed.allFit_removeVertex
  refine ⟨by rw [h.wellFormed.removeVertex_eq hmem], ?_⟩
  refine WellFormed.eq_of_lists (h.wellFormed.applyAll fits) wf
    (h.inOrder.applyAll h.wellFormed fits) o (hleft.directed.trans h.directed) ?_ ?_
  · refine hleft.vertices.trans ?_
    rw [h.vertices, List.filter_append, List.filter_eq_self.2, List.filter_eq_nil_iff.2]
    · exact List.append_nil _
    · simp
    · intro u hu
      rw [decide_eq_true_eq]
      rintro rfl
      exact hv hu
  · exact OrderedMap.ext (hleft.entries.trans h.entries)

end GrownBy

end Graph

end OptimalMatching
