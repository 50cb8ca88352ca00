import Mathlib.Data.List.Basic
import OptimalMatching.Proofs.Graph.Reachable
import OptimalMatching.Proofs.Renaming.Basic
/-!
# Graphs with renamed vertices

A graph does not look into the names of its vertices; it only compares them. So a change of a graph
and the renamed change of the renamed graph lead to graphs of which one is the renaming of the other
(`Graph.apply_rename`), and an operation makes the renamed changes (`Operation.changes_rename`).

**Histories.** A `History` tells how a graph came about: from the empty graph by operations, some of
them cut short, and by copying. The graph of a renamed history is the renamed graph
(`History.graph_rename`), with its edges, its neighbors and its orders.
-/

namespace OptimalMatching

variable (f : Vertex ↪ Vertex)

/-! ## Changes -/

/-- The same change of the renamed vertices. -/
def Change.rename : Change → Change
  | .addVertex v => .addVertex (f v)
  | .removeVertex v => .removeVertex (f v)
  | .addEdge e w => .addEdge (e.rename f) w
  | .removeEdge e => .removeEdge (e.rename f)
  | .reweigh e w => .reweigh (e.rename f) w

namespace Graph

def rename (g : Graph) : Graph where
  directed := g.directed
  edges := g.edges.rename (Edge.rename f) id
  adjacency := g.adjacency.rename f (·.rename f (Edge.rename f))
  incidence := g.incidence.rename f (·.map (Edge.rename f))

variable (g : Graph)

@[simp] theorem directed_rename : (g.rename f).directed = g.directed := rfl

@[simp] theorem vertices_rename : (g.rename f).vertices = g.vertices.map f :=
  OrderedMap.keys_rename ..

@[simp] theorem edgeList_rename : (g.rename f).edgeList = g.edgeList.map (Edge.rename f) :=
  OrderedMap.keys_rename ..

@[simp] theorem hasVertex_rename (v : Vertex) : (g.rename f).hasVertex (f v) = g.hasVertex v :=
  OrderedMap.contains_rename ..

@[simp] theorem edge?_rename (u v : Vertex) :
    (g.rename f).edge? (f u) (f v) = (g.edge? u v).map (Edge.rename f) := by
  simp only [edge?, rename, OrderedMap.get?_rename]
  cases g.adjacency.get? u <;> simp

theorem incident_rename (v : Vertex) :
    (g.rename f).incident (f v) = renameResult f (List.map (Edge.rename f)) (g.incident v) := by
  unfold incident
  simp only [rename, OrderedMap.get?_rename]
  cases g.incidence.get? v <;> rfl

theorem modifyEnds_rename {β β' : Type} (k : β → β') (m : OrderedMap Vertex β) (e : Edge)
    {atSource atTarget : β → β} {atSource' atTarget' : β' → β'}
    (hs : ∀ b, k (atSource b) = atSource' (k b)) (ht : ∀ b, k (atTarget b) = atTarget' (k b)) :
    ((m.modify e.source atSource).modify e.target atTarget).rename f k =
      ((m.rename f k).modify (f e.source) atSource').modify (f e.target) atTarget' := by
  rw [OrderedMap.modify_rename f k _ _ ht, OrderedMap.modify_rename f k _ _ hs]

/-- A change of the neighbors at the ends from which an edge is found, each with the other end. -/
theorem modifyFinds_rename {β β' : Type} (k : β → β') (directed : Bool) (m : OrderedMap Vertex β)
    (e : Edge) (change : Vertex → β → β) (change' : Vertex → β' → β')
    (h : ∀ a b, k (change a b) = change' (f a) (k b)) :
    (if directed then m.modify e.source (change e.target)
      else (m.modify e.source (change e.target)).modify e.target (change e.source)).rename f k =
    if directed then (m.rename f k).modify (f e.source) (change' (f e.target))
      else ((m.rename f k).modify (f e.source) (change' (f e.target))).modify (f e.target)
        (change' (f e.source)) := by
  cases directed with
  | true => exact OrderedMap.modify_rename f k m e.source (h e.target)
  | false => exact modifyEnds_rename f k m e (h e.target) (h e.source)

theorem linked_rename (e : Edge) :
    (g.linked e).rename f (·.rename f (Edge.rename f)) = (g.rename f).linked (e.rename f) :=
  modifyFinds_rename f (OrderedMap.rename f (Edge.rename f)) g.directed g.adjacency e
    (fun a m => m.insert a e) (fun a m => m.insert a (e.rename f)) fun a m =>
      m.insert_rename f (Edge.rename f) a e

theorem unlinked_rename (e : Edge) :
    (g.unlinked e).rename f (·.rename f (Edge.rename f)) = (g.rename f).unlinked (e.rename f) :=
  modifyFinds_rename f (OrderedMap.rename f (Edge.rename f)) g.directed g.adjacency e
    (fun a m => m.erase a) (fun a m => m.erase a) fun a m => m.erase_rename f (Edge.rename f) a

/-- **A change** of the renamed graph. -/
theorem apply_rename (c : Change) : (g.apply c).rename f = (g.rename f).apply (c.rename f) := by
  cases c with
  | addVertex v =>
    exact eq_of_tables rfl rfl (OrderedMap.insert_rename ..) (OrderedMap.insert_rename ..)
  | removeVertex v =>
    exact eq_of_tables rfl rfl (OrderedMap.erase_rename ..) (OrderedMap.erase_rename ..)
  | addEdge e w =>
    have append : ∀ es : List Edge,
        (es ++ [e]).map (Edge.rename f) = es.map (Edge.rename f) ++ [e.rename f] := by simp
    exact eq_of_tables rfl (OrderedMap.insert_rename ..) (linked_rename f g e)
      (modifyEnds_rename f _ g.incidence e append append)
  | removeEdge e =>
    have erase : ∀ es : List Edge,
        (es.erase e).map (Edge.rename f) = (es.map (Edge.rename f)).erase (e.rename f) :=
      fun es => List.map_erase (Edge.rename f).injective es
    exact eq_of_tables rfl (OrderedMap.erase_rename ..) (unlinked_rename f g e)
      (modifyEnds_rename f _ g.incidence e erase erase)
  | reweigh e w =>
    exact eq_of_tables rfl (OrderedMap.modify_rename (Edge.rename f) id g.edges e fun _ => rfl)
      rfl rfl

theorem applyAll_rename (cs : List Change) :
    (g.applyAll cs).rename f = (g.rename f).applyAll (cs.map (Change.rename f)) := by
  induction cs generalizing g with
  | nil => rfl
  | cons c cs ih => rw [List.map_cons, applyAll_cons, applyAll_cons, ih, apply_rename]

end Graph

/-! ## Operations -/

def Edit.rename {α β : Type} (k : α → β) (edit : Edit α) : Edit β :=
  ⟨edit.changes.map (Change.rename f), renameResult f k edit.result⟩

def Operation.rename : Operation → Operation
  | .set key w => .set (renameKey f key) w
  | .delete key => .delete (renameKey f key)
  | .pop key default => .pop (renameKey f key) default
  | .popFirst => .popFirst
  | .setDefault key default => .setDefault (renameKey f key) default
  | .update entries => .update (entries.map (Prod.map (renameKey f) id))
  | .clear => .clear
  | .addVertex v => .addVertex (f v)
  | .removeVertex v => .removeVertex (f v)
  | .addEdge source target w => .addEdge (f source) (f target) w

namespace Graph

variable (g : Graph) (key : Key) (w : Weight)

/-! ### Storing -/

theorem insertion_rename (e : Edge) :
    (g.rename f).insertion (e.rename f) w = (g.insertion e w).map (Change.rename f) := by
  have hends : ([e.source, e.target].map f).filter (fun v => !(g.rename f).hasVertex v) =
      ([e.source, e.target].filter fun v => !g.hasVertex v).map f := by
    rw [List.filter_map]
    simp only [Function.comp_def, hasVertex_rename]
  unfold insertion
  rw [List.map_append, List.map_map]
  exact congrArg (· ++ [.addEdge (e.rename f) w])
    ((congrArg (List.map Change.addVertex) hends).trans List.map_map)

theorem put_rename :
    (g.rename f).put (renameKey f key) w = (g.put key w).rename f (Edge.rename f) := by
  unfold put
  rw [ofKey?_renameKey]
  cases Edge.ofKey? key with
  | none => rfl
  | some e =>
    simp only [Option.map_some, Edge.source_rename, Edge.target_rename, edge?_rename]
    cases g.edge? e.source e.target with
    | some stored => rfl
    | none =>
      by_cases hloop : e.source = e.target
      · simp [hloop, Edit.fail, Edit.rename, renameResult, Failure.rename]
      · simp [hloop, insertion_rename, Edit.rename, renameResult]

theorem set_rename : (g.rename f).set (renameKey f key) w = (g.set key w).rename f id := by
  unfold set
  rw [put_rename]
  cases h : (g.put key w).result <;> simp [Edit.map, Edit.rename, h, renameResult, Except.map]

theorem update_rename (entries : List (Key × Weight)) :
    (g.rename f).update (entries.map (Prod.map (renameKey f) id)) =
      (g.update entries).rename f id := by
  induction entries generalizing g with
  | nil => rfl
  | cons entry rest ih =>
    obtain ⟨key, w⟩ := entry
    simp only [List.map_cons, Prod.map, id, update, set_rename]
    unfold Edit.andThen
    cases h : (g.set key w).result with
    | error reason => simp [Edit.rename, h, renameResult]
    | ok _ =>
      have hafter : ((g.set key w).rename f id).after (g.rename f) =
          ((g.set key w).after g).rename f := (applyAll_rename f g _).symm
      simp only [hafter]
      rw [ih]
      simp [Edit.rename, h, renameResult]

/-! ### Removing and the operations of a map

Only what these change is followed, and whether they find an edge: a key that is absent is named by
their failure as it is. -/

theorem stored_rename :
    ((g.rename f).stored (renameKey f key)).toOption =
      (g.stored key).toOption.map (Edge.rename f) := by
  unfold stored
  rw [ofKey?_renameKey]
  cases Edge.ofKey? key with
  | none => rfl
  | some e =>
    simp only [Option.map_some, Edge.source_rename, Edge.target_rename, edge?_rename]
    cases g.edge? e.source e.target <;> rfl

theorem get?_edges_rename (e : Edge) : (g.rename f).edges.get? (e.rename f) = g.edges.get? e := by
  simp [rename]

theorem weight_rename (e : Edge) :
    ((g.rename f).weight (e.rename f).toKey).toOption = (g.weight e.toKey).toOption := by
  unfold weight
  rw [Edge.ofKey?_toKey, Edge.ofKey?_toKey, Option.bind_some, Option.bind_some, get?_edges_rename]
  cases g.edges.get? e <;> rfl

theorem item_eq_bind :
    (g.item key).toOption =
      (g.stored key).toOption.bind fun e => (g.weight e.toKey).toOption := by
  unfold item
  cases g.stored key <;> rfl

theorem item_rename :
    ((g.rename f).item (renameKey f key)).toOption = (g.item key).toOption := by
  rw [item_eq_bind, item_eq_bind, stored_rename, Option.bind_map]
  simp only [Function.comp_def, weight_rename]

theorem delete_changes :
    (g.delete key).changes = (g.stored key).toOption.toList.map .removeEdge := by
  unfold delete
  cases g.stored key <;> rfl

theorem delete_rename :
    ((g.rename f).delete (renameKey f key)).changes =
      (g.delete key).changes.map (Change.rename f) := by
  rw [delete_changes, delete_changes, stored_rename]
  cases (g.stored key).toOption <;> rfl

theorem delete_result :
    (g.delete key).result.toOption = (g.stored key).toOption.map fun _ => () := by
  unfold delete
  cases g.stored key <;> rfl

theorem delete_result_rename :
    ((g.rename f).delete (renameKey f key)).result.toOption = (g.delete key).result.toOption := by
  rw [delete_result, delete_result, stored_rename, Option.map_map]

/-- As long as the edges that keys name are found, those that the renamed keys name are. -/
theorem deleteAll_rename (keys : List Key) :
    ((g.rename f).deleteAll (keys.map (renameKey f))).changes =
        (g.deleteAll keys).changes.map (Change.rename f) ∧
      ((g.rename f).deleteAll (keys.map (renameKey f))).result.toOption =
        (g.deleteAll keys).result.toOption := by
  induction keys generalizing g with
  | nil => exact ⟨rfl, rfl⟩
  | cons key rest ih =>
    have hchanges := delete_rename f g key
    have hresult := delete_result_rename f g key
    have hafter : ((g.rename f).delete (renameKey f key)).after (g.rename f) =
        ((g.delete key).after g).rename f := by
      unfold Edit.after
      rw [hchanges]
      exact (applyAll_rename f g _).symm
    obtain ⟨hrest, hend⟩ := ih ((g.delete key).after g)
    simp only [List.map_cons, deleteAll, Edit.andThen, hafter]
    -- Both deletions succeed or both fail, and only the failures may differ.
    cases hd : (g.delete key).result <;>
      cases hd' : ((g.rename f).delete (renameKey f key)).result <;> rw [hd, hd'] at hresult
    · exact ⟨hchanges, rfl⟩
    · cases hresult
    · cases hresult
    · exact ⟨by simp only [hchanges, hrest, List.map_append], hend⟩

/-- The vertex goes after its edges, unless one of them is not found. -/
theorem removeVertex_rename (v : Vertex) :
    ((g.rename f).removeVertex (f v)).changes =
      (g.removeVertex v).changes.map (Change.rename f) := by
  unfold Graph.removeVertex
  rw [hasVertex_rename, incident_rename]
  split_ifs
  · cases g.incident v with
    | error reason => rfl
    | ok es =>
      have hkeys : (es.map (Edge.rename f)).map Edge.toKey =
          (es.map Edge.toKey).map (renameKey f) := by
        rw [List.map_map, List.map_map]
        rfl
      obtain ⟨hchanges, hresult⟩ := deleteAll_rename f g (es.map Edge.toKey)
      simp only [renameResult, hkeys, Edit.andThen]
      cases hd : (g.deleteAll (es.map Edge.toKey)).result <;>
        cases hd' : ((g.rename f).deleteAll ((es.map Edge.toKey).map (renameKey f))).result <;>
        rw [hd, hd'] at hresult
      · exact hchanges
      · cases hresult
      · cases hresult
      · simp only [hchanges, List.map_append]
        rfl
  · rfl

theorem pop_changes (default : Option Weight) :
    (g.pop key default).changes =
      if (g.item key).toOption.isSome then (g.delete key).changes else [] := by
  unfold pop
  cases g.item key with
  | ok w => rfl
  | error reason => cases reason <;> cases default <;> rfl

/-- The first edge is taken if it is found by its name. -/
theorem popFirst_changes :
    g.popFirst.changes = g.edgeList.head?.elim [] fun e =>
      if (g.item e.toKey).toOption.isSome then (g.delete e.toKey).changes else [] := by
  unfold popFirst
  cases g.edgeList with
  | nil => rfl
  | cons e rest =>
    dsimp only [List.head?_cons, Option.elim_some]
    cases g.item e.toKey <;> rfl

/-- When the key of a pair has no weight, something is absent. -/
theorem absent_of_item {e : Edge} (hkey : Edge.ofKey? key = some e) {reason : Failure}
    (h : g.item key = .error reason) : ∃ name, reason = .absent name := by
  simp only [item, stored, hkey] at h
  cases hedge : g.edge? e.source e.target with
  | none =>
    rw [hedge] at h
    exact ⟨key, (Except.error.inj h).symm⟩
  | some e' =>
    rw [hedge] at h
    simp only [Except.bind, weight] at h
    split at h
    · exact ⟨e'.toKey, (Except.error.inj h).symm⟩
    · cases h

/-- A default is stored when the key names no edge. A malformed key is not stored either way. -/
theorem setDefault_changes (default : Weight) :
    (g.setDefault key default).changes =
      if (g.item key).toOption.isSome then [] else (g.put key default).changes := by
  unfold setDefault
  cases hitem : g.item key with
  | ok w => rfl
  | error reason =>
    cases hkey : Edge.ofKey? key with
    | none =>
      simp only [item, stored, hkey, Except.bind] at hitem
      cases hitem
      simp [put, hkey, Edit.fail, Except.toOption]
    | some e =>
      obtain ⟨name, rfl⟩ := absent_of_item g key hkey hitem
      rfl

end Graph

/-- **An operation** on the renamed graph makes the renamed changes. -/
theorem Operation.changes_rename (g : Graph) (op : Operation) :
    (op.rename f).changes (g.rename f) = (op.changes g).map (Change.rename f) := by
  cases op with
  | set key w => exact congrArg Edit.changes (g.set_rename f key w)
  | delete key => exact g.delete_rename f key
  | pop key default =>
    show ((g.rename f).pop (renameKey f key) default).changes = (g.pop key default).changes.map _
    rw [Graph.pop_changes, Graph.pop_changes, Graph.item_rename, Graph.delete_rename]
    split_ifs <;> rfl
  | popFirst =>
    show (g.rename f).popFirst.changes = g.popFirst.changes.map _
    rw [Graph.popFirst_changes, Graph.popFirst_changes, Graph.edgeList_rename]
    cases g.edgeList with
    | nil => rfl
    | cons e rest =>
      -- The first edge of the renamed graph is the renamed first edge.
      have hkey : (e.rename f).toKey = renameKey f e.toKey := rfl
      simp only [List.map_cons, List.head?_cons, Option.elim_some]
      rw [hkey, Graph.item_rename, Graph.delete_rename]
      split_ifs <;> rfl
  | setDefault key default =>
    show ((g.rename f).setDefault (renameKey f key) default).changes =
      (g.setDefault key default).changes.map _
    rw [Graph.setDefault_changes, Graph.setDefault_changes, Graph.item_rename, Graph.put_rename]
    split_ifs <;> rfl
  | update entries => exact congrArg Edit.changes (g.update_rename f entries)
  | clear =>
    show (g.rename f).edgeList.map Change.removeEdge = (g.edgeList.map Change.removeEdge).map _
    rw [Graph.edgeList_rename, List.map_map, List.map_map]
    rfl
  | addVertex v =>
    show ((g.rename f).addVertex (f v)).changes = (g.addVertex v).changes.map _
    unfold Graph.addVertex
    rw [Graph.hasVertex_rename]
    split_ifs <;> rfl
  | removeVertex v => exact g.removeVertex_rename f v
  | addEdge source target w =>
    exact congrArg Edit.changes (g.put_rename f (Edge.toKey ⟨source, target⟩) w)

theorem Graph.copy_rename (g : Graph) : g.copy.rename f = (g.rename f).copy := by
  have hvertices : ((Graph.empty g.directed).applyAll (g.vertices.map .addVertex)).rename f =
      (Graph.empty g.directed).applyAll ((g.rename f).vertices.map .addVertex) := by
    rw [applyAll_rename, vertices_rename, List.map_map, List.map_map]
    rfl
  have hentries : (g.rename f).entries = g.entries.map (Prod.map (renameKey f) id) := by
    simp only [entries, rename, OrderedMap.rename, List.map_map]
    rfl
  unfold copy
  dsimp only [directed_rename]
  rw [← hvertices, hentries, update_rename]
  exact applyAll_rename f _ _

/-! ## Histories -/

/-- How a graph came about. An operation may be cut short after any of its changes by a listener
that fails. -/
inductive History where
  | empty (directed : Bool)
  | operate (past : History) (op : Operation) (count : Nat)
  | copy (past : History)

namespace History

/-- The graph at the end of a history. -/
def graph : History → Graph
  | .empty directed => .empty directed
  | .operate past op count => past.graph.applyAll ((op.changes past.graph).take count)
  | .copy past => past.graph.copy

def rename : History → History
  | .empty directed => .empty directed
  | .operate past op count => .operate past.rename (op.rename f) count
  | .copy past => .copy past.rename

theorem reachable (history : History) : history.graph.Reachable := by
  induction history with
  | empty directed => exact .empty directed
  | operate past op count ih => exact .operate op count ih
  | copy past ih => exact .copy ih

/-- Every graph that operations lead to has a history. -/
theorem exists_of_reachable {g : Graph} (h : g.Reachable) :
    ∃ history : History, history.graph = g := by
  induction h with
  | empty directed => exact ⟨.empty directed, rfl⟩
  | operate op count _ ih =>
    obtain ⟨past, rfl⟩ := ih
    exact ⟨.operate past op count, rfl⟩
  | copy _ ih =>
    obtain ⟨past, rfl⟩ := ih
    exact ⟨.copy past, rfl⟩

/-- **A renamed history** leads to the renamed graph. -/
theorem graph_rename (history : History) : (history.rename f).graph = history.graph.rename f := by
  induction history with
  | empty directed => rfl
  | operate past op count ih =>
    rw [rename, graph, ih, Operation.changes_rename, ← List.map_take, ← Graph.applyAll_rename]
    rfl
  | copy past ih =>
    rw [rename, graph, ih, ← Graph.copy_rename]
    rfl

end History

end OptimalMatching
