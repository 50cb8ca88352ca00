import OptimalMatching.Proofs.Graph.Reachable
/-!
# A graph told by its events

Someone who hears of the events of a graph, and of nothing else, can keep a list of its vertices
and a list of its edges (`Roster`): what is added goes to the end, what is removed is struck out. A
roster admits an event only if it makes sense. What is added is new, an edge is added between
vertices that are there, what is removed is there, and no edge touches a vertex that is removed.

**One change.** The roster of a graph admits the event of a change that fits, and becomes the roster
of the graph after it (`note_event`). A change without an event leaves the roster
(`ofGraph_of_silent`).

**Many changes.** So the events of changes that fit lead from the roster of the graph before them to
that of the graph after them (`follow?_applyAll`), and this holds of every operation, however early
it is cut short (`follow?_operation`).
-/

namespace OptimalMatching

/-- A list of vertices and a list of edges, as one keeps them who hears of events only. -/
structure Roster where
  vertices : List Vertex
  edges : List Edge
  deriving DecidableEq

namespace Roster

def blank : Roster := ⟨[], []⟩

/-- The vertices and the edges of a graph, in order. -/
def ofGraph (g : Graph) : Roster := ⟨g.vertices, g.edgeList⟩

/-- An event makes sense. -/
def Admits (r : Roster) : Event → Prop
  | .vertexAdded v => v ∉ r.vertices
  | .vertexRemoved v => v ∈ r.vertices ∧ ∀ e ∈ r.edges, e.touches v = false
  | .edgeAdded e => e ∉ r.edges ∧ e.source ∈ r.vertices ∧ e.target ∈ r.vertices
  | .edgeRemoved e => e ∈ r.edges

instance (r : Roster) : (event : Event) → Decidable (r.Admits event)
  | .vertexAdded v => inferInstanceAs (Decidable (v ∉ r.vertices))
  | .vertexRemoved v =>
    inferInstanceAs (Decidable (v ∈ r.vertices ∧ ∀ e ∈ r.edges, e.touches v = false))
  | .edgeAdded e =>
    inferInstanceAs (Decidable (e ∉ r.edges ∧ e.source ∈ r.vertices ∧ e.target ∈ r.vertices))
  | .edgeRemoved e => inferInstanceAs (Decidable (e ∈ r.edges))

def note (r : Roster) : Event → Roster
  | .vertexAdded v => { r with vertices := r.vertices ++ [v] }
  | .vertexRemoved v => { r with vertices := r.vertices.erase v }
  | .edgeAdded e => { r with edges := r.edges ++ [e] }
  | .edgeRemoved e => { r with edges := r.edges.erase e }

/-- The roster after events, if each of them makes sense when it is heard. -/
def follow? (r : Roster) : List Event → Option Roster
  | [] => some r
  | event :: rest => if r.Admits event then (r.note event).follow? rest else none

theorem follow?_append (r : Roster) (events events' : List Event) :
    r.follow? (events ++ events') = (r.follow? events).bind fun r' => r'.follow? events' := by
  induction events generalizing r with
  | nil => rfl
  | cons event rest ih =>
    rw [List.cons_append, follow?, follow?]
    split_ifs
    · exact ih _
    · rfl

variable {g : Graph} {c : Change} {cs : List Change} {event : Event}

theorem ofGraph_eq {vs : List Vertex} {es : List Edge} (hv : g.vertices = vs)
    (he : g.edgeList = es) : ofGraph g = ⟨vs, es⟩ := by
  rw [ofGraph, hv, he]

theorem ofGraph_eq_blank (h : g.WellFormed) (hv : g.vertices = []) : ofGraph g = blank :=
  ofGraph_eq hv (List.eq_nil_iff_forall_not_mem.2 fun _ he =>
    List.not_mem_nil (hv ▸ h.source_mem he))

/-! ## One change -/

/-- **A change with an event.** -/
theorem note_event (h : g.WellFormed) (fits : c.Fits g)
    (hevent : c.event? = some event) :
    (ofGraph g).Admits event ∧ ofGraph (g.apply c) = (ofGraph g).note event := by
  cases c with
  | addVertex v =>
    obtain rfl := Option.some.inj hevent
    exact ⟨fits, ofGraph_eq (Graph.vertices_addVertex fits) rfl⟩
  | removeVertex v =>
    obtain rfl := Option.some.inj hevent
    have hvertices : (g.apply (.removeVertex v)).vertices = g.vertices.erase v :=
      Graph.vertices_removeVertex.trans (Graph.filter_ne_eq_erase g.adjacency.nodup_keys v)
    exact ⟨fits, ofGraph_eq hvertices rfl⟩
  | addEdge e w =>
    obtain rfl := Option.some.inj hevent
    have hnew := h.notMem_of_fits fits
    exact ⟨⟨hnew, fits.2.1, fits.2.2.1⟩,
      ofGraph_eq Graph.vertices_addEdge (Graph.edgeList_addEdge hnew)⟩
  | removeEdge e =>
    obtain rfl := Option.some.inj hevent
    have hedges : (g.apply (.removeEdge e)).edgeList = g.edgeList.erase e :=
      Graph.edgeList_removeEdge.trans
        (Graph.filter_ne_eq_erase (Graph.WellFormed.nodup_edgeList g) e)
    exact ⟨fits, ofGraph_eq Graph.vertices_removeEdge hedges⟩
  | reweigh e w => cases hevent

/-- **A change without an event** leaves vertices and edges. -/
theorem ofGraph_of_silent (hevent : c.event? = none) : ofGraph (g.apply c) = ofGraph g := by
  cases c with
  | reweigh e w => exact ofGraph_eq rfl Graph.edgeList_reweigh
  | _ => cases hevent

/-! ## Many changes -/

/-- **The events of changes** lead to the graph after them. -/
theorem follow?_applyAll (h : g.WellFormed) (fits : g.AllFit cs) :
    (ofGraph g).follow? (cs.filterMap Change.event?) = some (ofGraph (g.applyAll cs)) := by
  induction cs generalizing g with
  | nil => rfl
  | cons c cs ih =>
    have rest := ih (h.apply fits.1) fits.2
    cases hevent : c.event? with
    | none =>
      rw [List.filterMap_cons_none hevent, ← ofGraph_of_silent hevent]
      exact rest
    | some event =>
      obtain ⟨admits, hnote⟩ := note_event h fits.1 hevent
      rw [List.filterMap_cons_some hevent, follow?, if_pos admits, ← hnote]
      exact rest

/-- **An operation**, cut short after any number of changes. -/
theorem follow?_operation (h : g.WellFormed) (op : Operation) (count : Nat) :
    (ofGraph g).follow? (((op.changes g).take count).filterMap Change.event?) =
      some (ofGraph (g.applyAll ((op.changes g).take count))) :=
  follow?_applyAll h ((h.allFit op).take count)

end Roster

end OptimalMatching
