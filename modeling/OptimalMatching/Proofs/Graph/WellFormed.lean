import Mathlib.Data.List.Basic
import OptimalMatching.Graph.Edit
/-!
# The tables of a graph agree

A graph stores its edges three times over: in order, by their ends, and by the vertices that they
touch. `Graph.WellFormed` says that the three tables tell the same. A change may rely on this and on
what it says about itself, `Change.Fits`: a new vertex is new, a vertex that goes has no edges left,
and so on. Then the tables agree again after it (`WellFormed.apply`), and no table has been asked to
drop or to alter what it does not hold (`WellFormed.keysPresent`).
-/

namespace OptimalMatching

namespace Graph

variable {g : Graph} {e f : Edge} {u v : Vertex}

/-- Whether an edge is the one from a vertex to another, or the one between them in an undirected
graph. -/
def Joins (g : Graph) (e : Edge) (u v : Vertex) : Prop :=
  e = ⟨u, v⟩ ∨ g.directed = false ∧ e = ⟨v, u⟩

instance : Decidable (g.Joins e u v) := inferInstanceAs (Decidable (_ ∨ _ ∧ _))

/-- The three tables of a graph agree. -/
structure WellFormed (g : Graph) : Prop where
  loopless : ∀ {e}, e ∈ g.edgeList → e.source ≠ e.target
  source_mem : ∀ {e}, e ∈ g.edgeList → e.source ∈ g.vertices
  target_mem : ∀ {e}, e ∈ g.edgeList → e.target ∈ g.vertices
  /-- An undirected edge is stored one way round only. -/
  reverse_notMem : g.directed = false → ∀ {e}, e ∈ g.edgeList → e.reverse ∉ g.edgeList
  /-- An edge is found from its ends exactly when it is stored. -/
  edge?_iff : ∀ {u v e}, g.edge? u v = some e ↔ e ∈ g.edgeList ∧ g.Joins e u v
  incidence_keys : g.incidence.keys = g.vertices
  /-- The edges that touch a vertex are listed in the order of all edges. -/
  incident_eq : ∀ {v}, v ∈ g.vertices →
    g.incidence.get? v = some (g.edgeList.filter fun e => e.touches v)

end Graph

/-- What a change relies on. -/
def Change.Fits (g : Graph) : Change → Prop
  | .addVertex v => v ∉ g.vertices
  | .removeVertex v => v ∈ g.vertices ∧ ∀ e ∈ g.edgeList, e.touches v = false
  | .addEdge e _ => e.source ≠ e.target ∧ e.source ∈ g.vertices ∧ e.target ∈ g.vertices ∧
      g.edge? e.source e.target = none
  | .removeEdge e => e ∈ g.edgeList
  | .reweigh e _ => e ∈ g.edgeList

/-- The keys are there under which a change takes entries out of the tables or alters them. The two
ends of an edge that goes are different, so its removal at one end leaves the entry at the other. -/
def Change.KeysPresent (g : Graph) : Change → Prop
  | .addVertex _ => True
  | .removeVertex v => v ∈ g.adjacency.keys ∧ v ∈ g.incidence.keys
  | .addEdge e _ => ∀ v, e.touches v = true → v ∈ g.adjacency.keys ∧ v ∈ g.incidence.keys
  | .removeEdge e => e ∈ g.edges.keys ∧ e.source ≠ e.target ∧
      (∀ u v, g.Joins e u v → ∃ neighbors, g.adjacency.get? u = some neighbors ∧
        v ∈ neighbors.keys) ∧
      ∀ v, e.touches v = true → ∃ es, g.incidence.get? v = some es ∧ e ∈ es
  | .reweigh e _ => e ∈ g.edges.keys

namespace Graph

variable {g : Graph} {e f : Edge} {u v : Vertex} {w : Weight}

theorem eq_of_tables {g h : Graph} (directed : g.directed = h.directed) (edges : g.edges = h.edges)
    (adjacency : g.adjacency = h.adjacency) (incidence : g.incidence = h.incidence) : g = h := by
  cases g
  cases h
  simp_all

theorem touches_iff : e.touches v = true ↔ e.source = v ∨ e.target = v := by
  simp [Edge.touches]

theorem touches_iff_of_joins (h : g.Joins e u v) {x : Vertex} :
    e.touches x = true ↔ x = u ∨ x = v := by
  rcases h with rfl | ⟨-, rfl⟩
  · exact touches_iff.trans (or_congr eq_comm eq_comm)
  · exact touches_iff.trans (or_comm.trans (or_congr eq_comm eq_comm))

theorem touches_of_joins (h : g.Joins e u v) : e.touches u = true ∧ e.touches v = true :=
  ⟨(touches_iff_of_joins h).2 (.inl rfl), (touches_iff_of_joins h).2 (.inr rfl)⟩

theorem mem_vertices_iff : v ∈ g.vertices ↔ g.hasVertex v = true :=
  OrderedMap.contains_iff.symm

theorem edge?_eq_none (h : u ∉ g.vertices) : g.edge? u v = none := by
  unfold edge?
  rw [OrderedMap.get?_eq_none_iff.2 h, Option.bind_none]

theorem exists_neighbors (h : v ∈ g.vertices) :
    ∃ neighbors, g.adjacency.get? v = some neighbors := by
  refine Option.ne_none_iff_exists'.1 fun hnone => ?_
  exact OrderedMap.get?_eq_none_iff.1 hnone h

theorem weight_of_mem {a : Edge × Weight} (ha : a ∈ g.edges.entries) :
    g.weight a.1.toKey = .ok a.2 := by
  unfold weight
  rw [Edge.ofKey?_toKey, Option.bind_some, OrderedMap.get?_eq_some_iff.2 ha]

/-! ## What a change does to the tables -/

@[simp] theorem directed_apply (g : Graph) (c : Change) : (g.apply c).directed = g.directed := by
  cases c <;> rfl

theorem vertices_addVertex (h : v ∉ g.vertices) :
    (g.apply (.addVertex v)).vertices = g.vertices ++ [v] := by
  show (g.adjacency.insert v .empty).keys = g.adjacency.keys ++ [v]
  exact (OrderedMap.keys_insert ..).trans (if_neg h)

theorem edge?_addVertex (h : v ∉ g.vertices) (a b : Vertex) :
    (g.apply (.addVertex v)).edge? a b = g.edge? a b := by
  by_cases ha : v = a
  · subst ha
    rw [edge?_eq_none h]
    simp [edge?, apply, OrderedMap.get?_insert]
  · simp [edge?, apply, OrderedMap.get?_insert, ha]

theorem vertices_removeVertex : (g.apply (.removeVertex v)).vertices = g.vertices.filter (· ≠ v) :=
  OrderedMap.keys_erase ..

theorem edge?_removeVertex (a b : Vertex) :
    (g.apply (.removeVertex v)).edge? a b = if v = a then none else g.edge? a b := by
  by_cases ha : v = a <;> simp [edge?, apply, OrderedMap.get?_erase, ha]

@[simp] theorem vertices_addEdge : (g.apply (.addEdge e w)).vertices = g.vertices := by
  show (g.linked e).keys = g.adjacency.keys
  unfold linked
  dsimp only
  split_ifs <;> simp

@[simp] theorem vertices_removeEdge : (g.apply (.removeEdge e)).vertices = g.vertices := by
  show (g.unlinked e).keys = g.adjacency.keys
  unfold unlinked
  dsimp only
  split_ifs <;> simp

theorem edge?_addEdge (fits : (Change.addEdge e w).Fits g) (a b : Vertex) :
    (g.apply (.addEdge e w)).edge? a b = if g.Joins e a b then some e else g.edge? a b := by
  obtain ⟨s, t⟩ := e
  obtain ⟨hne, hs, ht, -⟩ := fits
  obtain ⟨ns, hns⟩ := exists_neighbors hs
  obtain ⟨nt, hnt⟩ := exists_neighbors ht
  dsimp only at hne hns hnt
  simp only [edge?, apply, linked, Joins, Edge.mk.injEq]
  cases g.directed
  · by_cases hsa : s = a
    · subst hsa
      simp [OrderedMap.get?_modify, OrderedMap.get?_insert, hns, Ne.symm hne]
    · by_cases hta : t = a
      · subst hta
        simp [OrderedMap.get?_modify, OrderedMap.get?_insert, hnt, hsa]
      · simp [OrderedMap.get?_modify, hsa, hta]
  · by_cases hsa : s = a
    · subst hsa
      simp [OrderedMap.get?_modify, OrderedMap.get?_insert, hns]
    · simp [OrderedMap.get?_modify, hsa]

theorem edge?_removeEdge (ne : e.source ≠ e.target) (hs : e.source ∈ g.vertices)
    (ht : e.target ∈ g.vertices) (a b : Vertex) :
    (g.apply (.removeEdge e)).edge? a b = if g.Joins e a b then none else g.edge? a b := by
  obtain ⟨s, t⟩ := e
  obtain ⟨ns, hns⟩ := exists_neighbors hs
  obtain ⟨nt, hnt⟩ := exists_neighbors ht
  dsimp only at ne hns hnt
  simp only [edge?, apply, unlinked, Joins, Edge.mk.injEq]
  cases g.directed
  · by_cases hsa : s = a
    · subst hsa
      simp [OrderedMap.get?_modify, OrderedMap.get?_erase, hns, Ne.symm ne]
    · by_cases hta : t = a
      · subst hta
        simp [OrderedMap.get?_modify, OrderedMap.get?_erase, hnt, hsa]
      · simp [OrderedMap.get?_modify, hsa, hta]
  · by_cases hsa : s = a
    · subst hsa
      simp [OrderedMap.get?_modify, OrderedMap.get?_erase, hns]
    · simp [OrderedMap.get?_modify, hsa]

theorem edgeList_addEdge (h : e ∉ g.edgeList) :
    (g.apply (.addEdge e w)).edgeList = g.edgeList ++ [e] := by
  show (g.edges.insert e w).keys = g.edges.keys ++ [e]
  exact (OrderedMap.keys_insert ..).trans (if_neg h)

theorem edgeList_removeEdge : (g.apply (.removeEdge e)).edgeList = g.edgeList.filter (· ≠ e) :=
  OrderedMap.keys_erase ..

theorem mem_edgeList_removeEdge :
    f ∈ (g.apply (.removeEdge e)).edgeList ↔ f ∈ g.edgeList ∧ f ≠ e := by
  simp [edgeList_removeEdge]

theorem edgeList_reweigh : (g.apply (.reweigh e w)).edgeList = g.edgeList :=
  OrderedMap.keys_modify ..

/-- A change at both ends of an edge is one at every vertex that the edge touches. -/
theorem get?_modify_ends {α : Type} (m : OrderedMap Vertex α) (change : α → α)
    (ne : e.source ≠ e.target) (v : Vertex) :
    ((m.modify e.source change).modify e.target change).get? v =
      if e.touches v then (m.get? v).map change else m.get? v := by
  rw [OrderedMap.get?_modify, OrderedMap.get?_modify]
  by_cases hs : e.source = v
  · have ht : e.target ≠ v := fun ht => ne (hs.trans ht.symm)
    simp [touches_iff, hs, ht]
  · simp [touches_iff, hs]

theorem filter_ne_eq_erase {α : Type} [DecidableEq α] {l : List α} (nodup : l.Nodup) (a : α) :
    l.filter (· ≠ a) = l.erase a := by
  rw [nodup.erase_eq_filter]
  exact List.filter_congr fun b _ => by by_cases hb : b = a <;> simp [hb]

namespace WellFormed

theorem mem_of_touches (h : g.WellFormed) (he : e ∈ g.edgeList) (hv : e.touches v = true) :
    v ∈ g.vertices := by
  rcases touches_iff.1 hv with rfl | rfl
  · exact h.source_mem he
  · exact h.target_mem he

theorem incident_eq_ok (h : g.WellFormed) (hv : v ∈ g.vertices) :
    g.incident v = .ok (g.edgeList.filter fun e => e.touches v) := by
  unfold incident
  rw [h.incident_eq hv]

theorem incident_eq_error (h : g.WellFormed) (hv : v ∉ g.vertices) :
    g.incident v = .error (.absent v) := by
  unfold incident
  rw [OrderedMap.get?_eq_none_iff.2 (h.incidence_keys ▸ hv)]

theorem nodup_edgeList (g : Graph) : g.edgeList.Nodup := g.edges.nodup_keys

theorem notMem_of_fits (h : g.WellFormed) (fits : (Change.addEdge e w).Fits g) :
    e ∉ g.edgeList := by
  intro he
  have hfound : g.edge? e.source e.target = some e := h.edge?_iff.2 ⟨he, .inl rfl⟩
  rw [fits.2.2.2] at hfound
  cases hfound

theorem addVertex (h : g.WellFormed) (fits : (Change.addVertex v).Fits g) :
    (g.apply (.addVertex v)).WellFormed where
  loopless he := h.loopless he
  source_mem he := by
    rw [vertices_addVertex fits]
    exact List.mem_append_left _ (h.source_mem he)
  target_mem he := by
    rw [vertices_addVertex fits]
    exact List.mem_append_left _ (h.target_mem he)
  reverse_notMem undirected _ he := h.reverse_notMem undirected he
  edge?_iff {a b e} := by
    rw [edge?_addVertex fits]
    exact h.edge?_iff
  incidence_keys := by
    show (g.incidence.insert v []).keys = (g.adjacency.insert v .empty).keys
    rw [OrderedMap.keys_insert, OrderedMap.keys_insert, h.incidence_keys]
    rfl
  incident_eq {a} ha := by
    show (g.incidence.insert v []).get? a = some (g.edgeList.filter fun e => e.touches a)
    rw [OrderedMap.get?_insert]
    split_ifs with hva
    · -- No edge touches the vertex yet, so its list is rightly empty.
      subst hva
      rw [eq_comm, Option.some_inj, List.filter_eq_nil_iff]
      exact fun e he hv => fits (h.mem_of_touches he hv)
    · rw [vertices_addVertex fits] at ha
      refine h.incident_eq ((List.mem_append.1 ha).resolve_right fun ha => ?_)
      exact hva (List.mem_singleton.1 ha).symm

theorem removeVertex (h : g.WellFormed) (fits : (Change.removeVertex v).Fits g) :
    (g.apply (.removeVertex v)).WellFormed := by
  -- No edge that is left touches the vertex, so the ends of all edges stay.
  have hne : ∀ {e u}, e ∈ g.edgeList → e.touches u = true → u ≠ v := by
    rintro e u he hu rfl
    simp [fits.2 e he] at hu
  have hkeep : ∀ {e u}, e ∈ g.edgeList → e.touches u = true →
      u ∈ (g.apply (.removeVertex v)).vertices := fun he hu => by
    rw [vertices_removeVertex]
    exact List.mem_filter.2 ⟨h.mem_of_touches he hu, by simpa using hne he hu⟩
  constructor
  case loopless => exact h.loopless
  case source_mem => exact fun he => hkeep he (touches_iff.2 (.inl rfl))
  case target_mem => exact fun he => hkeep he (touches_iff.2 (.inr rfl))
  case reverse_notMem => exact h.reverse_notMem
  case edge?_iff =>
    intro a b e
    rw [edge?_removeVertex]
    split_ifs with hva
    · refine iff_of_false (by simp) ?_
      rintro ⟨he, hj⟩
      exact hne he (touches_of_joins hj).1 hva.symm
    · exact h.edge?_iff
  case incidence_keys =>
    show (g.incidence.erase v).keys = (g.adjacency.erase v).keys
    rw [OrderedMap.keys_erase, OrderedMap.keys_erase, h.incidence_keys]
    rfl
  case incident_eq =>
    intro a ha
    rw [vertices_removeVertex, List.mem_filter, decide_eq_true_eq] at ha
    show (g.incidence.erase v).get? a = _
    rw [OrderedMap.get?_erase, if_neg (Ne.symm ha.2)]
    exact h.incident_eq ha.1

theorem addEdge (h : g.WellFormed) (fits : (Change.addEdge e w).Fits g) :
    (g.apply (.addEdge e w)).WellFormed := by
  have hfound := edge?_addEdge fits
  obtain ⟨ne, hs, ht, hnone⟩ := fits
  -- The look-up that failed means: no stored edge joins these ends.
  have hnew : ∀ {f}, f ∈ g.edgeList → ¬ g.Joins f e.source e.target := fun hf hj => by
    simp [h.edge?_iff.2 ⟨hf, hj⟩] at hnone
  have he : e ∉ g.edgeList := fun he => hnew he (.inl rfl)
  have hedges : (g.apply (.addEdge e w)).edgeList = g.edgeList ++ [e] := edgeList_addEdge he
  have hmem : ∀ {f}, f ∈ (g.apply (.addEdge e w)).edgeList ↔ f ∈ g.edgeList ∨ f = e := by
    simp [hedges]
  constructor
  case loopless =>
    intro f hf
    rcases hmem.1 hf with hf | rfl
    · exact h.loopless hf
    · exact ne
  case source_mem =>
    intro f hf
    rw [vertices_addEdge]
    rcases hmem.1 hf with hf | rfl
    · exact h.source_mem hf
    · exact hs
  case target_mem =>
    intro f hf
    rw [vertices_addEdge]
    rcases hmem.1 hf with hf | rfl
    · exact h.target_mem hf
    · exact ht
  case reverse_notMem =>
    intro undirected f hf hr
    change g.directed = false at undirected
    rcases hmem.1 hf with hf | rfl <;> rcases hmem.1 hr with hr | hr
    · exact h.reverse_notMem undirected hf hr
    · refine hnew hf (.inr ⟨undirected, ?_⟩)
      rw [← hr]
      rfl
    · exact hnew hr (.inr ⟨undirected, rfl⟩)
    · exact ne (congrArg Edge.target hr)
  case edge?_iff =>
    intro a b f
    rw [hfound, hmem]
    show _ ↔ _ ∧ g.Joins f a b
    split_ifs with hj
    · rw [Option.some_inj]
      refine ⟨fun hef => hef ▸ ⟨.inr rfl, hj⟩, ?_⟩
      rintro ⟨hf | rfl, hf'⟩
      · -- An old edge between the same ends would have been found.
        refine absurd ?_ (hnew hf)
        rcases hj with rfl | ⟨undirected, rfl⟩
        · exact hf'
        · exact hf'.symm.imp (fun hr => hr.2) fun hr => ⟨undirected, hr⟩
      · rfl
    · rw [h.edge?_iff, or_and_right]
      refine (or_iff_left ?_).symm
      rintro ⟨rfl, hf⟩
      exact hj hf
  case incidence_keys =>
    rw [vertices_addEdge]
    show ((g.incidence.modify _ _).modify _ _).keys = _
    simp [h.incidence_keys]
  case incident_eq =>
    intro a ha
    rw [vertices_addEdge] at ha
    show ((g.incidence.modify _ _).modify _ _).get? a = _
    rw [get?_modify_ends _ _ ne, h.incident_eq ha, hedges, List.filter_append]
    split_ifs with hea <;> simp [hea]

theorem removeEdge (h : g.WellFormed) (fits : (Change.removeEdge e).Fits g) :
    (g.apply (.removeEdge e)).WellFormed := by
  have ne := h.loopless fits
  have hmem : ∀ {f}, f ∈ (g.apply (.removeEdge e)).edgeList ↔ f ∈ g.edgeList ∧ f ≠ e :=
    mem_edgeList_removeEdge
  constructor
  case loopless =>
    intro f hf
    exact h.loopless (hmem.1 hf).1
  case source_mem =>
    intro f hf
    rw [vertices_removeEdge]
    exact h.source_mem (hmem.1 hf).1
  case target_mem =>
    intro f hf
    rw [vertices_removeEdge]
    exact h.target_mem (hmem.1 hf).1
  case reverse_notMem =>
    intro undirected f hf hr
    exact h.reverse_notMem undirected (hmem.1 hf).1 (hmem.1 hr).1
  case edge?_iff =>
    intro a b f
    rw [edge?_removeEdge ne (h.source_mem fits) (h.target_mem fits), hmem]
    show _ ↔ _ ∧ g.Joins f a b
    split_ifs with hj
    · -- Only the removed edge joined these ends.
      refine iff_of_false (by simp) ?_
      rintro ⟨⟨hf, hfe⟩, hf'⟩
      have hfound := h.edge?_iff.2 ⟨fits, hj⟩
      rw [h.edge?_iff.2 ⟨hf, hf'⟩] at hfound
      exact hfe (Option.some.inj hfound)
    · rw [h.edge?_iff]
      refine ⟨fun ⟨hf, hf'⟩ => ⟨⟨hf, ?_⟩, hf'⟩, fun ⟨hf, hf'⟩ => ⟨hf.1, hf'⟩⟩
      intro heq
      subst heq
      exact hj hf'
  case incidence_keys =>
    rw [vertices_removeEdge]
    show ((g.incidence.modify _ _).modify _ _).keys = _
    simp [h.incidence_keys]
  case incident_eq =>
    intro a ha
    rw [vertices_removeEdge] at ha
    show ((g.incidence.modify _ _).modify _ _).get? a = _
    rw [get?_modify_ends _ _ ne, h.incident_eq ha, edgeList_removeEdge, List.filter_comm]
    split_ifs with hea
    · -- The list of an end loses its only copy of the edge.
      rw [Option.map_some, filter_ne_eq_erase ((nodup_edgeList g).filter _)]
    · rw [Option.some_inj, eq_comm, List.filter_eq_self]
      intro f hf
      rw [decide_eq_true_eq]
      intro heq
      subst heq
      exact hea (List.mem_filter.1 hf).2

theorem reweigh (h : g.WellFormed) : (g.apply (.reweigh e w)).WellFormed := by
  have hedges : (g.apply (.reweigh e w)).edgeList = g.edgeList := edgeList_reweigh
  constructor
  case loopless =>
    rw [hedges]
    exact h.loopless
  case source_mem =>
    rw [hedges]
    exact h.source_mem
  case target_mem =>
    rw [hedges]
    exact h.target_mem
  case reverse_notMem =>
    rw [hedges]
    exact h.reverse_notMem
  case edge?_iff =>
    rw [hedges]
    exact h.edge?_iff
  case incidence_keys => exact h.incidence_keys
  case incident_eq =>
    rw [hedges]
    exact h.incident_eq

/-- **A change that fits** keeps the tables in agreement. -/
theorem apply (h : g.WellFormed) {c : Change} (fits : c.Fits g) : (g.apply c).WellFormed := by
  cases c with
  | addVertex v => exact h.addVertex fits
  | removeVertex v => exact h.removeVertex fits
  | addEdge e w => exact h.addEdge fits
  | removeEdge e => exact h.removeEdge fits
  | reweigh e w => exact h.reweigh

/-- **No key is missing** when a change that fits takes entries out of the tables or alters them. -/
theorem keysPresent (h : g.WellFormed) {c : Change} (fits : c.Fits g) : c.KeysPresent g := by
  have both : ∀ {v}, v ∈ g.vertices → v ∈ g.adjacency.keys ∧ v ∈ g.incidence.keys := fun hv =>
    ⟨hv, h.incidence_keys ▸ hv⟩
  cases c with
  | addVertex v => trivial
  | removeVertex v => exact both fits.1
  | addEdge e w =>
    obtain ⟨-, hs, ht, -⟩ := fits
    intro v hv
    rcases touches_iff.1 hv with rfl | rfl
    · exact both hs
    · exact both ht
  | removeEdge e =>
    refine ⟨fits, h.loopless fits, fun u v hj => ?_, fun v hv => ?_⟩
    · obtain ⟨neighbors, hget, hfound⟩ := Option.bind_eq_some_iff.1 (h.edge?_iff.2 ⟨fits, hj⟩)
      refine ⟨neighbors, hget, ?_⟩
      by_contra hnot
      rw [OrderedMap.get?_eq_none_iff.2 hnot] at hfound
      cases hfound
    · exact ⟨_, h.incident_eq (h.mem_of_touches fits hv), List.mem_filter.2 ⟨fits, hv⟩⟩
  | reweigh e w => exact fits

theorem empty (directed : Bool) : (Graph.empty directed).WellFormed where
  loopless he := by cases he
  source_mem he := by cases he
  target_mem he := by cases he
  reverse_notMem _ _ he := by cases he
  edge?_iff := iff_of_false (by simp [edge?, Graph.empty]) fun he => by cases he.1
  incidence_keys := rfl
  incident_eq hv := by cases hv

end WellFormed

end Graph

end OptimalMatching
