import OptimalMatching.Proofs.Graph.WellFormed
import OptimalMatching.View
/-!
# Looking edges and neighbors up

What the look-ups of a graph give when its tables agree. The neighbors of a vertex are the other
ends of the edges that touch it, in the order of the edges. An edge leads from its source, and in an
undirected graph from its target too, and no two edges lead from one vertex to the same other one.
-/

namespace OptimalMatching

/-- The end of an edge that one gets to from a vertex. -/
def Edge.across (e : Edge) (v : Vertex) : Vertex := if e.source = v then e.target else e.source

theorem Edge.opposite?_eq {e : Edge} {v : Vertex} (h : e.touches v = true) :
    e.opposite? v = some (e.across v) := by
  unfold opposite? across
  by_cases hs : e.source = v
  · rw [if_pos hs, if_pos hs]
  · rw [if_neg hs, if_neg hs, if_pos ((Graph.touches_iff.1 h).resolve_left hs)]

theorem mapM_eq_ok {α β ε : Type} {f : α → Except ε β} {g : α → β} {l : List α}
    (h : ∀ a ∈ l, f a = .ok (g a)) : l.mapM f = .ok (l.map g) := by
  induction l with
  | nil => rfl
  | cons a l ih =>
    rw [List.mapM_cons, h a List.mem_cons_self, ih fun b hb => h b (List.mem_cons_of_mem _ hb)]
    rfl

namespace Graph

variable {g h : Graph} {e f : Edge} {u v : Vertex}

theorem named_eq (h : e ∈ g.edgeList) : g.named e.toKey = .ok e := by
  unfold named
  rw [Edge.ofKey?_toKey]
  exact if_pos (OrderedMap.contains_iff.2 h)

theorem endpoints_eq (h : e ∈ g.edgeList) : g.endpoints e.toKey = .ok (e.source, e.target) := by
  unfold endpoints
  rw [named_eq h]
  rfl

theorem opposite_eq (h : e ∈ g.edgeList) (hv : e.touches v = true) :
    g.opposite e.toKey v = .ok (e.across v) := by
  unfold opposite
  simp only [named_eq h, Except.bind, Edge.opposite?_eq hv]

theorem across_of_joins (ne : e.source ≠ e.target) (h : g.Joins e u v) : e.across u = v := by
  rcases h with rfl | ⟨-, rfl⟩
  · exact if_pos rfl
  · exact if_neg ne

theorem joins_comm (undirected : g.directed = false) : g.Joins e u v ↔ g.Joins e v u := by
  simp [Joins, undirected, or_comm]

theorem joins_congr (directed : g.directed = h.directed) : g.Joins e u v ↔ h.Joins e u v := by
  unfold Joins
  rw [directed]

/-- An edge leads from a vertex: from its source, and in an undirected graph from its target. -/
def Leads (g : Graph) (e : Edge) (v : Vertex) : Prop :=
  e.source = v ∨ g.directed = false ∧ e.target = v

instance : Decidable (g.Leads e v) := inferInstanceAs (Decidable (_ ∨ _ ∧ _))

theorem leads_congr (directed : g.directed = h.directed) : g.Leads e v ↔ h.Leads e v := by
  unfold Leads
  rw [directed]

/-- In an undirected graph an edge leads from both of its ends. -/
theorem leads_of_touches (undirected : g.directed = false) (hv : e.touches v = true) :
    g.Leads e v :=
  (touches_iff.1 hv).imp_right fun ht => ⟨undirected, ht⟩

theorem Leads.joins (h : g.Leads e v) : g.Joins e v (e.across v) := by
  unfold Edge.across
  split_ifs with hs
  · exact .inl (hs ▸ rfl)
  · obtain ⟨undirected, ht⟩ := h.resolve_left hs
    exact .inr ⟨undirected, ht ▸ rfl⟩

theorem Leads.touches (h : g.Leads e v) : e.touches v = true := (touches_of_joins h.joins).1

theorem joins_across (undirected : g.directed = false) (hv : e.touches v = true) :
    g.Joins e v (e.across v) :=
  (leads_of_touches undirected hv).joins

namespace WellFormed

/-- The neighbors of a vertex, one for each edge that touches it. -/
theorem neighborList_eq (h : g.WellFormed) (hv : v ∈ g.vertices) :
    g.neighborList v = .ok ((g.edgeList.filter fun e => e.touches v).map fun e => e.across v) := by
  unfold neighborList
  rw [h.incident_eq_ok hv]
  exact mapM_eq_ok fun e he =>
    opposite_eq (List.mem_filter.1 he).1 (List.mem_filter.1 he).2

/-- In an undirected graph the neighbors of a vertex are those to which an edge is found. -/
theorem mem_neighbors_iff (h : g.WellFormed) (undirected : g.directed = false) :
    u ∈ ((g.edgeList.filter fun e => e.touches v).map fun e => e.across v) ↔
      (g.edge? v u).isSome := by
  rw [List.mem_map, Option.isSome_iff_exists]
  refine exists_congr fun e => ?_
  rw [List.mem_filter, h.edge?_iff, and_assoc]
  refine and_congr_right fun he => ⟨?_, fun hj => ?_⟩
  · rintro ⟨hv, rfl⟩
    exact joins_across undirected hv
  · exact ⟨(touches_of_joins hj).1, across_of_joins (h.loopless he) hj⟩

theorem edge?_comm (h : g.WellFormed) (undirected : g.directed = false) :
    g.edge? u v = g.edge? v u := by
  refine Option.ext fun e => ?_
  rw [h.edge?_iff, h.edge?_iff, joins_comm undirected]

theorem edge?_self (h : g.WellFormed) : g.edge? v v = none := by
  refine Option.eq_none_iff_forall_ne_some.2 fun e he => ?_
  obtain ⟨hmem, hj⟩ := h.edge?_iff.1 he
  refine h.loopless hmem ?_
  rcases hj with rfl | ⟨-, rfl⟩ <;> rfl

theorem eq_of_across (h : g.WellFormed) (he : e ∈ g.edgeList) (hf : f ∈ g.edgeList)
    (hev : g.Leads e v) (hfv : g.Leads f v) (heq : f.across v = e.across v) : f = e := by
  have hfound := h.edge?_iff.2 ⟨he, hev.joins⟩
  rw [← heq, h.edge?_iff.2 ⟨hf, hfv.joins⟩] at hfound
  exact Option.some.inj hfound

end WellFormed

end Graph

theorem View.exists_weight (view : View) {e : Edge} (he : e ∈ view.edgeList) :
    ∃ w, view.weight e.toKey = .ok w := by
  unfold View.weight
  cases view.overrides.get? e.toKey with
  | some w => exact ⟨w, rfl⟩
  | none =>
    obtain ⟨a, ha, rfl⟩ := List.mem_map.1 he
    exact ⟨a.2, Graph.weight_of_mem ha⟩

end OptimalMatching
