import OptimalMatching.Proofs.Graph.WellFormed
import OptimalMatching.View
/-!
# The tables agree in every graph that operations lead to

Every operation makes changes that fit, one after the other, as long as the tables of the graph
agree at its start (`WellFormed.allFit`). A listener may fail after any of them and cut the
operation short, so it is the graphs between two changes that are reachable, and in all of them the
tables agree (`Reachable.wellFormed`).
-/

namespace OptimalMatching

/-- An operation that may change a graph. -/
inductive Operation where
  | set (key : Key) (w : Weight)
  | delete (key : Key)
  | pop (key : Key) (default : Option Weight)
  | popFirst
  | setDefault (key : Key) (default : Weight)
  | update (entries : List (Key × Weight))
  | clear
  | addVertex (v : Vertex)
  | removeVertex (v : Vertex)
  | addEdge (source target : Vertex) (w : Weight)

/-- The changes that an operation makes. -/
def Operation.changes (g : Graph) : Operation → List Change
  | .set key w => (g.set key w).changes
  | .delete key => (g.delete key).changes
  | .pop key default => (g.pop key default).changes
  | .popFirst => g.popFirst.changes
  | .setDefault key default => (g.setDefault key default).changes
  | .update entries => (g.update entries).changes
  | .clear => g.clear.changes
  | .addVertex v => (g.addVertex v).changes
  | .removeVertex v => (g.removeVertex v).changes
  | .addEdge source target w => (g.addEdge source target w).changes

/-- An operation with its result left out. -/
def Operation.edit (g : Graph) : Operation → Edit Unit
  | .set key w => g.set key w
  | .delete key => g.delete key
  | .pop key default => (g.pop key default).map fun _ => ()
  | .popFirst => g.popFirst.map fun _ => ()
  | .setDefault key default => (g.setDefault key default).map fun _ => ()
  | .update entries => g.update entries
  | .clear => g.clear
  | .addVertex v => (g.addVertex v).map fun _ => ()
  | .removeVertex v => g.removeVertex v
  | .addEdge source target w => (g.addEdge source target w).map fun _ => ()

theorem Operation.changes_edit (g : Graph) (op : Operation) :
    (op.edit g).changes = op.changes g := by
  cases op <;> rfl

namespace Graph

/-- The graphs that operations lead to. An operation may be cut short after any of its changes by a
listener that fails. -/
inductive Reachable : Graph → Prop where
  | empty (directed : Bool) : Reachable (.empty directed)
  | operate {g : Graph} (op : Operation) (count : Nat) :
      Reachable g → Reachable (g.applyAll ((op.changes g).take count))
  | copy {g : Graph} : Reachable g → Reachable g.copy

variable {g : Graph} {e : Edge} {v : Vertex} {w : Weight} {key : Key} {cs cs' : List Change}

/-! ## Changes one after the other -/

/-- Every change of a list fits the graph that the earlier ones have left. -/
def AllFit (g : Graph) : List Change → Prop
  | [] => True
  | c :: cs => c.Fits g ∧ (g.apply c).AllFit cs

theorem allFit_append : g.AllFit (cs ++ cs') ↔ g.AllFit cs ∧ (g.applyAll cs).AllFit cs' := by
  induction cs generalizing g with
  | nil => simp [AllFit]
  | cons c cs ih => simp [AllFit, ih, and_assoc]

theorem AllFit.take (fits : g.AllFit cs) (count : Nat) : g.AllFit (cs.take count) := by
  rw [← List.take_append_drop count cs] at fits
  exact (allFit_append.1 fits).1

theorem directed_applyAll (g : Graph) (cs : List Change) :
    (g.applyAll cs).directed = g.directed := by
  induction cs generalizing g with
  | nil => rfl
  | cons c cs ih => exact (ih _).trans (directed_apply g c)

/-- Changes that fit, one after the other, keep the tables in agreement. -/
theorem WellFormed.applyAll (h : g.WellFormed) (fits : g.AllFit cs) :
    (g.applyAll cs).WellFormed := by
  induction cs generalizing g with
  | nil => exact h
  | cons c cs ih => exact ih (h.apply fits.1) fits.2

/-- New vertices come in at the end, without edges. -/
theorem addVertices_spec {vs : List Vertex} (nodup : vs.Nodup) (fresh : ∀ v ∈ vs, v ∉ g.vertices) :
    g.AllFit (vs.map .addVertex) ∧
      (g.applyAll (vs.map .addVertex)).vertices = g.vertices ++ vs ∧
        ∀ a b, (g.applyAll (vs.map .addVertex)).edge? a b = g.edge? a b := by
  induction vs generalizing g with
  | nil => exact ⟨trivial, by simp, fun _ _ => rfl⟩
  | cons v vs ih =>
    have hv := fresh v List.mem_cons_self
    have hvs := List.nodup_cons.1 nodup
    have hfresh : ∀ u ∈ vs, u ∉ (g.apply (.addVertex v)).vertices := fun u hu hu' => by
      rw [vertices_addVertex hv] at hu'
      rcases List.mem_append.1 hu' with hu' | hu'
      · exact fresh u (List.mem_cons_of_mem _ hu) hu'
      · exact hvs.1 (List.mem_singleton.1 hu' ▸ hu)
    obtain ⟨fits, hvertices, hfound⟩ := ih hvs.2 hfresh
    refine ⟨⟨hv, fits⟩, ?_, fun a b => ?_⟩
    · rw [List.map_cons, applyAll_cons, hvertices, vertices_addVertex hv, List.append_assoc]
      rfl
    · rw [List.map_cons, applyAll_cons, hfound, edge?_addVertex hv]

/-- Edges that are removed are gone, and the others stay in their order with their weights. -/
theorem entries_removeEdges (g : Graph) (es : List Edge) :
    (g.applyAll (es.map .removeEdge)).edges.entries = g.edges.entries.filter fun a => a.1 ∉ es := by
  induction es generalizing g with
  | nil => simp
  | cons e es ih =>
    rw [List.map_cons, applyAll_cons, ih]
    show (g.edges.entries.filter fun a => a.1 ≠ e).filter _ = _
    rw [List.filter_filter]
    exact List.filter_congr fun a _ => by simp [Bool.and_comm]

theorem edgeList_removeEdges (g : Graph) (es : List Edge) :
    (g.applyAll (es.map .removeEdge)).edgeList = g.edgeList.filter fun e => e ∉ es := by
  unfold edgeList OrderedMap.keys
  rw [entries_removeEdges, List.filter_map]
  rfl

theorem vertices_removeEdges (g : Graph) (es : List Edge) :
    (g.applyAll (es.map .removeEdge)).vertices = g.vertices := by
  induction es generalizing g with
  | nil => rfl
  | cons e es ih => exact (ih _).trans vertices_removeEdge

theorem stored_of_cons {es : List Edge} (nodup : (e :: es).Nodup)
    (stored : ∀ f ∈ e :: es, f ∈ g.edgeList) :
    ∀ f ∈ es, f ∈ (g.apply (.removeEdge e)).edgeList := fun f hf =>
  mem_edgeList_removeEdge.2
    ⟨stored f (List.mem_cons_of_mem _ hf), fun hfe => (List.nodup_cons.1 nodup).1 (hfe ▸ hf)⟩

/-- Stored edges can be removed in any order. -/
theorem allFit_removeEdges {es : List Edge} (nodup : es.Nodup) (stored : ∀ e ∈ es, e ∈ g.edgeList) :
    g.AllFit (es.map .removeEdge) := by
  induction es generalizing g with
  | nil => trivial
  | cons e es ih =>
    exact ⟨stored e List.mem_cons_self,
      ih (List.nodup_cons.1 nodup).2 (stored_of_cons nodup stored)⟩

/-! ## Operations -/

/-- After a weight that is stored, the update goes on with the graph that holds it. -/
theorem update_cons {a : Key × Weight} (hset : (g.set a.1 a.2).result = .ok ())
    (rest : List (Key × Weight)) :
    g.update (a :: rest) =
      ⟨(g.set a.1 a.2).changes ++ (((g.set a.1 a.2).after g).update rest).changes,
        (((g.set a.1 a.2).after g).update rest).result⟩ := by
  rw [update, Edit.andThen, hset]

theorem update_cons_of_error {a : Key × Weight} {f : Failure}
    (hset : (g.set a.1 a.2).result = .error f) (rest : List (Key × Weight)) :
    g.update (a :: rest) = ⟨(g.set a.1 a.2).changes, .error f⟩ := by
  rw [update, Edit.andThen, hset]

/-- A new edge between vertices of the graph is the only change. -/
theorem put_of_fits (fits : (Change.addEdge e w).Fits g) :
    g.put e.toKey w = ⟨[.addEdge e w], .ok e⟩ := by
  obtain ⟨ne, hs, ht, hnone⟩ := fits
  have hinsertion : g.insertion e w = [.addEdge e w] := by
    unfold insertion
    rw [List.filter_eq_nil_iff.2]
    · rfl
    · simpa using ⟨mem_vertices_iff.1 hs, mem_vertices_iff.1 ht⟩
  unfold put
  rw [Edge.ofKey?_toKey]
  dsimp only
  rw [hnone, if_neg ne, hinsertion]

theorem removeVertex_of_notMem (hv : v ∉ g.vertices) :
    g.removeVertex v = .fail (.absent v) :=
  if_neg (mt mem_vertices_iff.2 hv)

theorem entries_removeFirst {a : Edge × Weight} {rest : List (Edge × Weight)}
    (hentries : g.edges.entries = a :: rest) :
    (g.apply (.removeEdge a.1)).edges.entries = rest := by
  have nodup := g.edges.nodup
  rw [hentries, List.map_cons, List.nodup_cons] at nodup
  show g.edges.entries.filter _ = rest
  rw [hentries, List.filter_cons_of_neg (by simp), List.filter_eq_self]
  intro b hb
  have hne : b.1 ≠ a.1 := fun heq => nodup.1 (heq ▸ List.mem_map_of_mem hb)
  simpa using hne

theorem popFirst_of_nil (hedges : g.edgeList = []) : g.popFirst = .fail .noEdges := by
  unfold popFirst
  rw [hedges]

namespace WellFormed

theorem mem_of_stored (h : g.WellFormed) (hkey : g.stored key = .ok e) : e ∈ g.edgeList := by
  unfold stored at hkey
  split at hkey
  · cases hkey
  · split at hkey
    · cases hkey
    · next hfound =>
      obtain rfl := Except.ok.inj hkey
      exact (h.edge?_iff.1 hfound).1

/-- A new weight for a stored edge, whichever way round it is named, is the only change. -/
theorem put_of_joins (h : g.WellFormed) {u v : Vertex} (he : e ∈ g.edgeList) (hj : g.Joins e u v)
    (w : Weight) : g.put (Edge.toKey ⟨u, v⟩) w = ⟨[.reweigh e w], .ok e⟩ := by
  unfold put
  rw [Edge.ofKey?_toKey]
  dsimp only
  rw [h.edge?_iff.2 ⟨he, hj⟩]

theorem stored_of_joins (h : g.WellFormed) {u v : Vertex} (he : e ∈ g.edgeList)
    (hj : g.Joins e u v) : g.stored (Edge.toKey ⟨u, v⟩) = .ok e := by
  unfold stored
  rw [Edge.ofKey?_toKey]
  dsimp only
  rw [h.edge?_iff.2 ⟨he, hj⟩]

theorem delete_of_joins (h : g.WellFormed) {u v : Vertex} (he : e ∈ g.edgeList)
    (hj : g.Joins e u v) : g.delete (Edge.toKey ⟨u, v⟩) = ⟨[.removeEdge e], .ok ()⟩ := by
  unfold delete
  rw [h.stored_of_joins he hj]

theorem item_of_joins (h : g.WellFormed) {u v : Vertex} {a : Edge × Weight}
    (ha : a ∈ g.edges.entries) (hj : g.Joins a.1 u v) :
    g.item (Edge.toKey ⟨u, v⟩) = .ok a.2 := by
  unfold item
  rw [h.stored_of_joins (List.mem_map_of_mem ha) hj]
  exact weight_of_mem ha

/-- Stored edges that are named one after the other are all found. -/
theorem deleteAll_eq (h : g.WellFormed) {es : List Edge} (nodup : es.Nodup)
    (stored : ∀ e ∈ es, e ∈ g.edgeList) :
    g.deleteAll (es.map Edge.toKey) = ⟨es.map .removeEdge, .ok ()⟩ := by
  induction es generalizing g with
  | nil => rfl
  | cons e es ih =>
    have he := stored e List.mem_cons_self
    have hrest : (g.apply (.removeEdge e)).deleteAll (es.map Edge.toKey) = _ :=
      ih (h.removeEdge he) (List.nodup_cons.1 nodup).2 (stored_of_cons nodup stored)
    have hfirst : g.delete e.toKey = ⟨[.removeEdge e], .ok ()⟩ := h.delete_of_joins he (.inl rfl)
    rw [List.map_cons, deleteAll, hfirst]
    show Edit.mk ([_] ++ ((g.apply (.removeEdge e)).deleteAll _).changes)
      ((g.apply (.removeEdge e)).deleteAll _).result = _
    rw [hrest]
    rfl

/-- **A vertex is removed** with the edges that touch it: none of them is missed when its turn
comes. -/
theorem removeVertex_eq (h : g.WellFormed) (hv : v ∈ g.vertices) :
    g.removeVertex v =
      ⟨(g.edgeList.filter fun e => e.touches v).map .removeEdge ++ [.removeVertex v], .ok ()⟩ := by
  have hall := h.deleteAll_eq ((nodup_edgeList g).filter fun e => e.touches v)
    fun e he => (List.mem_filter.1 he).1
  unfold Graph.removeVertex
  rw [if_pos (mem_vertices_iff.1 hv), h.incident_eq_ok hv]
  dsimp only
  rw [hall]
  rfl

theorem popFirst_eq (h : g.WellFormed) {a : Edge × Weight} {rest : List (Edge × Weight)}
    (hentries : g.edges.entries = a :: rest) : g.popFirst = ⟨[.removeEdge a.1], .ok a⟩ := by
  have ha : a ∈ g.edges.entries := by simp [hentries]
  have hedges : g.edgeList = a.1 :: rest.map Prod.fst := congrArg (List.map Prod.fst) hentries
  have hitem : g.item a.1.toKey = .ok a.2 := h.item_of_joins ha (.inl rfl)
  have hdelete : g.delete a.1.toKey = ⟨[.removeEdge a.1], .ok ()⟩ :=
    h.delete_of_joins (List.mem_map_of_mem ha) (.inl rfl)
  unfold popFirst
  rw [hedges]
  dsimp only
  rw [hitem, hdelete]
  rfl

theorem allFit_insertion (hnone : g.edge? e.source e.target = none) (ne : e.source ≠ e.target) :
    g.AllFit (g.insertion e w) := by
  have nodup : ([e.source, e.target].filter fun v => !g.hasVertex v).Nodup :=
    List.Pairwise.filter _ (by simp [ne])
  obtain ⟨fits, hvertices, hfound⟩ := addVertices_spec nodup fun v hv => by
    simpa [mem_vertices_iff] using (List.mem_filter.1 hv).2
  have hmem : ∀ v ∈ [e.source, e.target], v ∈ (g.applyAll
      (([e.source, e.target].filter fun v => !g.hasVertex v).map .addVertex)).vertices := by
    intro v hv
    rw [hvertices, List.mem_append, List.mem_filter, mem_vertices_iff]
    cases g.hasVertex v <;> simp [hv]
  exact allFit_append.2
    ⟨fits, ⟨ne, hmem _ (by simp), hmem _ (by simp), (hfound _ _).trans hnone⟩, trivial⟩

theorem allFit_put (h : g.WellFormed) : g.AllFit (g.put key w).changes := by
  unfold put
  split
  · trivial
  · split
    · next hfound => exact ⟨(h.edge?_iff.1 hfound).1, trivial⟩
    · next hnone =>
      split_ifs with ne
      · trivial
      · exact allFit_insertion hnone ne

theorem allFit_delete (h : g.WellFormed) : g.AllFit (g.delete key).changes := by
  unfold delete
  split
  · trivial
  · next hkey => exact ⟨h.mem_of_stored hkey, trivial⟩

theorem allFit_update (h : g.WellFormed) (entries : List (Key × Weight)) :
    g.AllFit (g.update entries).changes := by
  induction entries generalizing g with
  | nil => trivial
  | cons entry rest ih =>
    have fits : g.AllFit (g.set entry.1 entry.2).changes := h.allFit_put
    unfold update Edit.andThen
    split
    · exact fits
    · exact allFit_append.2 ⟨fits, ih (h.applyAll fits)⟩

theorem allFit_clear : g.AllFit g.clear.changes :=
  allFit_removeEdges (nodup_edgeList g) fun _ he => he

theorem allFit_removeVertex (h : g.WellFormed) : g.AllFit (g.removeVertex v).changes := by
  by_cases hv : v ∈ g.vertices
  · have fits := allFit_removeEdges ((nodup_edgeList g).filter fun e => e.touches v)
      fun e he => (List.mem_filter.1 he).1
    rw [h.removeVertex_eq hv]
    refine allFit_append.2 ⟨fits, ⟨?_, fun e he => ?_⟩, trivial⟩
    · rwa [vertices_removeEdges]
    · rw [edgeList_removeEdges, List.mem_filter] at he
      simpa [he.1] using he.2
  · rw [removeVertex_of_notMem hv]
    trivial

/-- **Every operation** makes changes that fit. -/
theorem allFit (h : g.WellFormed) (op : Operation) : g.AllFit (op.changes g) := by
  cases op with
  | set key w => exact h.allFit_put
  | delete key => exact h.allFit_delete
  | pop key default =>
    show g.AllFit (g.pop key default).changes
    unfold pop
    split
    · exact h.allFit_delete
    · trivial
    · trivial
  | popFirst =>
    show g.AllFit g.popFirst.changes
    cases hentries : g.edges.entries with
    | nil =>
      rw [popFirst_of_nil (congrArg (List.map Prod.fst) hentries)]
      trivial
    | cons a rest =>
      -- The first entry is stored, and it is the one that is deleted.
      rw [h.popFirst_eq hentries]
      exact ⟨List.mem_map_of_mem (by simp [hentries]), trivial⟩
  | setDefault key default =>
    show g.AllFit (g.setDefault key default).changes
    unfold setDefault
    split
    · trivial
    · exact h.allFit_put
    · trivial
  | update entries => exact h.allFit_update entries
  | clear => exact allFit_clear
  | addVertex v =>
    show g.AllFit (g.addVertex v).changes
    unfold Graph.addVertex
    split_ifs with hv
    · trivial
    · exact ⟨fun hv' => hv (mem_vertices_iff.1 hv'), trivial⟩
  | removeVertex v => exact h.allFit_removeVertex
  | addEdge source target w => exact h.allFit_put

theorem copy (g : Graph) : g.copy.WellFormed := by
  have fits := (addVertices_spec (g := .empty g.directed) g.adjacency.nodup_keys fun _ _ hv => by
    cases hv).1
  have h' := (WellFormed.empty g.directed).applyAll fits
  exact h'.applyAll (h'.allFit_update g.entries)

end WellFormed

/-- **In every graph that operations lead to** the tables agree. -/
theorem Reachable.wellFormed (h : g.Reachable) : g.WellFormed := by
  induction h with
  | empty directed => exact .empty directed
  | operate op count _ ih => exact ih.applyAll ((ih.allFit op).take count)
  | @copy g _ _ => exact .copy g

theorem Reachable.whole (h : g.Reachable) (op : Operation) :
    (g.applyAll (op.changes g)).Reachable := by
  have := Reachable.operate op (op.changes g).length h
  rwa [List.take_length] at this

end Graph

/-- The views of the graphs that operations lead to. -/
inductive View.Reachable : View → Prop where
  | graph {g : Graph} : g.Reachable → Reachable (.ofGraph g)
  | overlay {view : View} (weights : List (Key × Weight)) :
      Reachable view → Reachable (view.overlay weights)

namespace View.Reachable

variable {view : View}

theorem wellFormed (h : view.Reachable) : view.graph.WellFormed := by
  induction h with
  | graph hg => exact hg.wellFormed
  | overlay _ _ ih => exact ih

theorem simple (h : view.Reachable) : view.simple = true := by
  induction h with
  | graph _ => rfl
  | overlay _ _ ih => exact ih

end View.Reachable

end OptimalMatching
