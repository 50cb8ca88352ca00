import OptimalMatching.Proofs.Workspace.Calls
/-!
# The tables agree whenever a listener is called

Graphs are built and copied, listeners come and go, caches are asked or told by hand, and operations
are carried out, until a listener fails or to their end. All workspaces that this leads to are
`Reachable`, and so are their graphs (`Reachable.graphs`): nothing but an operation changes a graph,
and an operation leaves it between two of its changes. There the three tables agree.

Guests may fail at any event. `Graph.Reachable` covers what is then left behind for a graph by
itself: it cuts every operation after any number of changes.
-/

namespace OptimalMatching

namespace Graph

theorem reachable_ofEntries {directed : Bool} {entries : List (Key × Weight)} {g : Graph}
    (h : ofEntries directed entries = .ok g) : g.Reachable := by
  have hresult : ((Graph.empty directed).update entries).result.map (fun _ =>
      ((Graph.empty directed).update entries).after (.empty directed)) = .ok g := h
  cases hu : ((Graph.empty directed).update entries).result with
  | error f =>
    rw [hu] at hresult
    cases hresult
  | ok _ =>
    rw [hu] at hresult
    obtain rfl := Except.ok.inj hresult
    exact (Reachable.empty directed).whole (.update entries)

end Graph

namespace Workspace

/-- A listener is there. -/
def Knows {O : Outside} (w : Workspace O) : Listener → Prop
  | .cache c => c < w.caches.length
  | .recorder r => r < w.recorders.length
  | .guest g => g < w.guests.length

/-- The workspaces that one gets to. -/
inductive Reachable {O : Outside} : Workspace O → Prop where
  | empty : Reachable .empty
  | addGraph {w : Workspace O} {directed : Bool} {entries : List (Key × Weight)} {g : Graph} :
      Reachable w → Graph.ofEntries directed entries = .ok g → Reachable (w.addGraph g).1
  | copyGraph {w : Workspace O} (id : Nat) :
      Reachable w → Reachable (w.addGraph (w.graph id).copy).1
  | addCache {w : Workspace O} (source : Nat) : Reachable w → Reachable (w.addCache source).1
  | addRecorder {w : Workspace O} : Reachable w → Reachable w.addRecorder.1
  | addGuest {w : Workspace O} (guest : O.Guest) : Reachable w → Reachable (w.addGuest guest).1
  | register {w : Workspace O} {l : Listener} (id : Nat) :
      Reachable w → w.Knows l → Reachable (w.register id l)
  | unregister {w : Workspace O} (id : Nat) (l : Listener) :
      Reachable w → Reachable (w.unregister id l).1
  /-- A cache is asked for neighbors, or told of an event by hand. -/
  | consult {w : Workspace O} {α : Type} (cache : Nat)
      (f : Neighborhoods O.bags → Graph → Neighborhoods O.bags × Except Failure α) :
      Reachable w → Reachable (w.withCache cache f).1
  | operate {w : Workspace O} (id : Nat) (op : Operation) :
      Reachable w → Reachable (w.operate id op).1

variable {O : Outside} {w w' : Workspace O} {id : Nat}

/-! ## Graphs -/

theorem graph_addGraph (w : Workspace O) (g : Graph) (id : Nat) :
    (w.addGraph g).1.graph id = if id = w.graphs.length then g else w.graph id := by
  unfold graph addGraph
  rcases Nat.lt_trichotomy id w.graphs.length with hid | rfl | hid
  · rw [if_neg (Nat.ne_of_lt hid), List.getElem?_append_left hid]
  · simp
  · rw [if_neg (Nat.ne_of_gt hid), List.getElem?_eq_none (Nat.le_of_lt hid),
      List.getElem?_eq_none (by simp; omega)]

/-- Only its listeners change when a graph gets or loses one. -/
theorem graph_of_modify_listeners {f : Watched → Watched} (h : w'.graphs = w.graphs.modify id f)
    (same : ∀ g, (f g).graph = g.graph) (other : Nat) : w'.graph other = w.graph other := by
  unfold graph
  rw [h, List.getElem?_modify]
  cases w.graphs[other]? with
  | none => rfl
  | some g => by_cases hid : id = other <;> simp [hid, same]

theorem graph_register (w : Workspace O) (id : Nat) (l : Listener) (other : Nat) :
    (w.register id l).graph other = w.graph other :=
  graph_of_modify_listeners (f := fun g => { g with listeners := g.listeners ++ [l] }) rfl
    (fun _ => rfl) other

theorem graph_unregister (w : Workspace O) (id : Nat) (l : Listener) (other : Nat) :
    (w.unregister id l).1.graph other = w.graph other := by
  unfold unregister
  split_ifs
  · exact graph_of_modify_listeners (f := fun g => { g with listeners := g.listeners.erase l }) rfl
      (fun _ => rfl) other
  · rfl

/-- An operation on reachable graphs finds and leaves reachable graphs. -/
theorem reachable_operate (reachable : ∀ other, (w.graph other).Reachable) (id : Nat)
    (op : Operation) :
    (∀ other, ((w.operate id op).1.graph other).Reachable) ∧
      ∀ call ∈ w.calls id op, ∀ other, (call.workspace.graph other).Reachable := by
  obtain ⟨hend, hcalls⟩ := midway_commitAll w id (op.changes (w.graph id))
  rw [operate_fst]
  exact ⟨hend.reachable reachable, fun call hcall => (hcalls call hcall).reachable reachable⟩

/-- **The graphs** of the workspaces that one gets to are graphs that operations lead to. -/
theorem Reachable.graphs (h : w.Reachable) (id : Nat) : (w.graph id).Reachable := by
  induction h generalizing id with
  | empty => exact .empty false
  | addGraph _ hg ih =>
    rw [graph_addGraph]
    split_ifs
    · exact Graph.reachable_ofEntries hg
    · exact ih id
  | copyGraph source _ ih =>
    rw [graph_addGraph]
    split_ifs
    · exact (ih source).copy
    · exact ih id
  | addCache _ _ ih => exact ih id
  | addRecorder _ ih => exact ih id
  | addGuest _ _ ih => exact ih id
  | register other _ _ ih =>
    rw [graph_register]
    exact ih id
  | unregister other l _ ih =>
    rw [graph_unregister]
    exact ih id
  | consult _ _ _ ih => exact ih id
  | operate other op _ ih => exact (reachable_operate ih other op).1 id

/-- **Main result.** The tables of every graph agree, whatever has been done and has failed: in
every graph that operations lead to when any of their changes may be the last, and in every
workspace that one gets to, at each call of a listener and after the operation. -/
theorem tables_agree_at_every_call :
    (∀ {g : Graph}, g.Reachable → g.WellFormed) ∧
      ∀ {O : Outside} {w : Workspace O}, w.Reachable → ∀ (id : Nat) (op : Operation) (other : Nat),
        (w.graph other).WellFormed ∧ ((w.operate id op).1.graph other).WellFormed ∧
          ∀ call ∈ w.calls id op, (call.workspace.graph other).WellFormed := by
  refine ⟨fun h => h.wellFormed, fun h id op other => ?_⟩
  obtain ⟨hend, hcalls⟩ := reachable_operate h.graphs id op
  exact ⟨(h.graphs other).wellFormed, (hend other).wellFormed,
    fun call hcall => (hcalls call hcall other).wellFormed⟩

/-- An empty graph with a listener that reads another graph: a cache that fails when it is told of
an edge. -/
def eavesdropped : Workspace .plain :=
  (((Workspace.empty.addGraph (.empty false)).1.addGraph (.empty true)).1.addCache 1).1.register 0
    (.cache 0)

/-- Two edges are to be stored, but the listener fails at the first one. -/
def twoEdges : Operation :=
  .update [(.tuple [.int 1, .int 2], .int 7), (.tuple [.int 2, .int 3], .int 7)]

theorem tables_agree_at_every_call_eavesdropped :
    eavesdropped.Reachable ∧
      (eavesdropped.operate 0 twoEdges).2 = .error (.absent (.tuple [.int 1, .int 2])) ∧
      ((eavesdropped.operate 0 twoEdges).1.graph 0).edgeList = [⟨.int 1, .int 2⟩] ∧
      (eavesdropped.calls 0 twoEdges).map Call.event =
        [.vertexAdded (.int 1), .vertexAdded (.int 2), .edgeAdded ⟨.int 1, .int 2⟩] ∧
      ((eavesdropped.operate 0 twoEdges).1.graph 0).WellFormed ∧
      (∀ call ∈ eavesdropped.calls 0 twoEdges, (call.workspace.graph 0).WellFormed) ∧
      ((Graph.empty true).applyAll ((twoEdges.changes (.empty true)).take 3)).WellFormed := by
  have undirected : Graph.ofEntries false [] = .ok (.empty false) := rfl
  have directed : Graph.ofEntries true [] = .ok (.empty true) := rfl
  have reachable : eavesdropped.Reachable :=
    .register 0 (.addCache 1 (.addGraph (.addGraph .empty undirected) directed))
      (show 0 < 1 by decide)
  obtain ⟨-, hend, hcalls⟩ := tables_agree_at_every_call.2 reachable 0 twoEdges 0
  exact ⟨reachable, by rfl, by decide +kernel, by decide +kernel, hend, hcalls,
    tables_agree_at_every_call.1 ((Graph.Reachable.empty true).operate twoEdges 3)⟩

end Workspace

end OptimalMatching
