import OptimalMatching.Proofs.Graph.Reachable
import OptimalMatching.Workspace
/-!
# The calls of listeners

An operation on a graph calls the listeners of the graph after each of its changes, one after the
other, until one of them fails. `Workspace.calls` lists these calls, each with the workspace that
the listener finds.

**A call changes no graph.** So what a call finds, and what the operation leaves behind, are the
graphs after the first so many changes of the operation (`Midway`).

**Clearing** goes edge by edge, so the failure of a listener can end it (`popEach_eq_clear`).

**No call fails** exactly when the operation gets to its last change (`commitAll_eq_ok_iff`).
-/

namespace OptimalMatching

theorem Change.events_cons (c : Change) (cs : List Change) :
    (c :: cs).filterMap Change.event? = c.event?.toList ++ cs.filterMap Change.event? := by
  cases h : c.event? <;> simp [h]

/-- A graph after changes, with the same listeners. -/
def Watched.after (cs : List Change) (g : Watched) : Watched :=
  { g with graph := g.graph.applyAll cs }

/-- A listener that is called: what it is told, and the workspace that it finds. -/
structure Call (O : Outside) where
  workspace : Workspace O
  event : Event
  listener : Listener

/-- What comes of a call. -/
def Call.outcome {O : Outside} (call : Call O) : Except Failure Unit :=
  (call.workspace.tell call.event call.listener).2

namespace Workspace

variable {O : Outside} {w w' : Workspace O} {id : Nat} {event : Event} {l : Listener}
  {ls : List Listener} {c : Change} {cs : List Change} {call : Call O}

def operate (w : Workspace O) (id : Nat) : Operation → Workspace O × Except Failure Unit
  | .clear => w.clear id
  | op => w.perform id fun g => op.edit g

/-! ## Listing the calls -/

/-- The calls when listeners are told of an event. -/
def tellCalls (w : Workspace O) (event : Event) : List Listener → List (Call O)
  | [] => []
  | l :: rest =>
    ⟨w, event, l⟩ ::
      match w.tell event l with
      | (_, .error _) => []
      | (w, .ok ()) => tellCalls w event rest

def commitCalls (w : Workspace O) (id : Nat) (c : Change) : List (Call O) :=
  let changed := w.change id c
  match c.event? with
  | none => []
  | some event => changed.tellCalls event (changed.listeners id)

/-- The calls when a graph goes through changes. -/
def commitAllCalls (w : Workspace O) (id : Nat) : List Change → List (Call O)
  | [] => []
  | c :: rest =>
    w.commitCalls id c ++
      match w.commit id c with
      | (_, .error _) => []
      | (w, .ok ()) => commitAllCalls w id rest

def calls (w : Workspace O) (id : Nat) (op : Operation) : List (Call O) :=
  w.commitAllCalls id (op.changes (w.graph id))

/-- What an operation leaves behind is what its changes do. -/
theorem operate_fst (w : Workspace O) (id : Nat) (op : Operation) :
    (w.operate id op).1 = (w.commitAll id (op.changes (w.graph id))).1 := by
  cases op with
  | clear =>
    show (w.clear id).1 = (w.commitAll id (w.graph id).clear.changes).1
    simp only [Workspace.clear, perform]
    rcases w.commitAll id (w.graph id).clear.changes with ⟨w', _ | _⟩ <;> rfl
  | _ =>
    simp only [operate, perform, Operation.changes_edit]
    split <;> next heq => rw [heq]

/-- An operation that no listener ends comes to its own result. -/
theorem operate_of_ok {op : Operation}
    (h : w.commitAll id (op.changes (w.graph id)) = (w', .ok ())) :
    w.operate id op = (w', (op.edit (w.graph id)).result) := by
  cases op with
  | clear =>
    have hclear : w.commitAll id (w.graph id).clear.changes = (w', .ok ()) := h
    show w.clear id = (w', .ok ())
    simp only [Workspace.clear, perform, hclear]
    rfl
  | _ => simp only [operate, perform, Operation.changes_edit, h]

/-! ## No call fails -/

theorem tellAll_eq_ok_iff :
    (w.tellAll event ls).2 = .ok () ↔ ∀ call ∈ w.tellCalls event ls, call.outcome = .ok () := by
  induction ls generalizing w with
  | nil => simp [tellAll, tellCalls]
  | cons l rest ih =>
    rcases htell : w.tell event l with ⟨w', f | ⟨⟩⟩
    · simp [tellAll, tellCalls, Call.outcome, htell]
    · simp [tellAll, tellCalls, Call.outcome, htell, ih]

theorem commit_eq_ok_iff (w : Workspace O) (id : Nat) (c : Change) :
    (w.commit id c).2 = .ok () ↔ ∀ call ∈ w.commitCalls id c, call.outcome = .ok () := by
  unfold commit commitCalls
  cases c.event? with
  | none => simp
  | some event => exact tellAll_eq_ok_iff

theorem commitAll_eq_ok_iff :
    (w.commitAll id cs).2 = .ok () ↔ ∀ call ∈ w.commitAllCalls id cs, call.outcome = .ok () := by
  induction cs generalizing w with
  | nil => simp [commitAll, commitAllCalls]
  | cons c rest ih =>
    have hcommit := commit_eq_ok_iff w id c
    rcases hc : w.commit id c with ⟨w', f | ⟨⟩⟩
    · rw [hc] at hcommit
      simpa [commitAll, commitAllCalls, hc] using hcommit
    · rw [hc] at hcommit
      simp only [commitAll, commitAllCalls, hc, List.mem_append, or_imp, forall_and, ih]
      exact (and_iff_right (hcommit.1 rfl)).symm

/-! ## What stays while listeners are told -/

/-- What every call of a listener keeps holds at every call and in the end. -/
theorem tellAll_keeps {P : Workspace O → Prop}
    (step : ∀ l ∈ ls, ∀ w : Workspace O, P w → P (w.tell event l).1) (h : P w) :
    P (w.tellAll event ls).1 ∧ ∀ call ∈ w.tellCalls event ls, P call.workspace := by
  induction ls generalizing w with
  | nil => exact ⟨h, by simp [tellCalls]⟩
  | cons l rest ih =>
    have hl := step l List.mem_cons_self w h
    have hstep : ∀ l ∈ rest, ∀ w : Workspace O, P w → P (w.tell event l).1 :=
      fun l hl => step l (List.mem_cons_of_mem _ hl)
    rcases htell : w.tell event l with ⟨w', f | ⟨⟩⟩
    · rw [htell] at hl
      simpa [tellAll, tellCalls, htell] using ⟨hl, h⟩
    · rw [htell] at hl
      simpa [tellAll, tellCalls, htell, h] using ih hstep hl

/-- A guest that is told of something changes nothing but what it remembers. -/
theorem tellGuest_fst (w : Workspace O) (id : Nat) (event : Event) :
    ∃ guests, guests.length = w.guests.length ∧
      (w.tellGuest id event).1 = { w with guests := guests } := by
  unfold tellGuest
  cases w.guests[id]? with
  | none => exact ⟨w.guests, rfl, rfl⟩
  | some guest => exact ⟨_, List.length_set, rfl⟩

theorem graphs_tell (w : Workspace O) (event : Event) (l : Listener) :
    (w.tell event l).1.graphs = w.graphs := by
  cases l with
  | cache | recorder => rfl
  | guest k =>
    obtain ⟨guests, -, htold⟩ := w.tellGuest_fst k event
    rw [tell, htold]

theorem graphs_tellAll :
    (w.tellAll event ls).1.graphs = w.graphs ∧
      ∀ call ∈ w.tellCalls event ls, call.workspace.graphs = w.graphs :=
  tellAll_keeps (P := fun w' => w'.graphs = w.graphs)
    (fun l _ w' h => (graphs_tell w' event l).trans h) rfl

/-! ## The graphs that calls find -/

theorem graph_of_modify (h : w'.graphs = w.graphs.modify id (Watched.after cs))
    (hid : id < w.graphs.length) : w'.graph id = (w.graph id).applyAll cs := by
  unfold graph
  rw [h, List.getElem?_modify_eq, List.getElem?_eq_getElem hid]
  rfl

theorem graph_of_modify_ne {f : Watched → Watched} (h : w'.graphs = w.graphs.modify id f)
    {other : Nat} (ne : id ≠ other) : w'.graph other = w.graph other := by
  unfold graph
  rw [h, List.getElem?_modify_ne _ _ ne]

theorem listeners_of_modify (h : w'.graphs = w.graphs.modify id (Watched.after cs))
    (other : Nat) : w'.listeners other = w.listeners other := by
  unfold listeners
  rw [h, List.getElem?_modify]
  cases w.graphs[other]? with
  | none => rfl
  | some g => by_cases hid : id = other <;> simp [hid, Watched.after]

theorem graphs_change : (w.change id c).graphs = w.graphs.modify id (Watched.after [c]) := rfl

/-- A change is there before the first listener is told of it, and stays when one fails. -/
theorem graphs_commit (w : Workspace O) (id : Nat) (c : Change) :
    (w.commit id c).1.graphs = w.graphs.modify id (Watched.after [c]) ∧
      ∀ call ∈ w.commitCalls id c,
        call.workspace.graphs = w.graphs.modify id (Watched.after [c]) := by
  unfold commit commitCalls
  cases c.event? with
  | none => exact ⟨graphs_change, by simp⟩
  | some event => exact graphs_tellAll

theorem listeners_change (w : Workspace O) (id : Nat) (c : Change) (other : Nat) :
    (w.change id c).listeners other = w.listeners other :=
  listeners_of_modify graphs_change other

theorem listeners_tell (w : Workspace O) (event : Event) (l : Listener) (other : Nat) :
    (w.tell event l).1.listeners other = w.listeners other := by
  unfold listeners
  rw [graphs_tell]

/-- What a change and every call of a listener keep holds after the change is told. -/
theorem commit_keeps {P : Workspace O → Prop} (change : ∀ w : Workspace O, P w → P (w.change id c))
    (tell : ∀ w : Workspace O, P w → ∀ l ∈ w.listeners id, ∀ event, P (w.tell event l).1)
    (h : P w) : P (w.commit id c).1 := by
  unfold commit
  cases c.event? with
  | none => exact change w h
  | some event =>
    -- the listeners are those of the workspace before the first call
    have step : ∀ l ∈ (w.change id c).listeners id, ∀ w' : Workspace O,
        P w' ∧ w'.listeners id = (w.change id c).listeners id →
          P (w'.tell event l).1 ∧ (w'.tell event l).1.listeners id = (w.change id c).listeners id :=
      fun l hl w' h' => ⟨tell w' h'.1 l (h'.2 ▸ hl) event, (listeners_tell ..).trans h'.2⟩
    exact (tellAll_keeps step ⟨change w h, rfl⟩).1.1

/-- What changes and calls of listeners keep holds in the end. -/
theorem commitAll_keeps {P : Workspace O → Prop}
    (change : ∀ (w : Workspace O) (c : Change), P w → P (w.change id c))
    (tell : ∀ w : Workspace O, P w → ∀ l ∈ w.listeners id, ∀ event, P (w.tell event l).1)
    (cs : List Change) (h : P w) : P (w.commitAll id cs).1 := by
  induction cs generalizing w with
  | nil => exact h
  | cons c rest ih =>
    have hcommit := commit_keeps (c := c) (change · c) tell h
    rcases hc : w.commit id c with ⟨w', f | ⟨⟩⟩ <;> rw [hc] at hcommit
    · simpa [commitAll, hc] using hcommit
    · simpa [commitAll, hc] using ih hcommit

theorem listener_mem_of_tellCalls (hcall : call ∈ w.tellCalls event ls) : call.listener ∈ ls := by
  induction ls generalizing w with
  | nil => cases hcall
  | cons l rest ih =>
    rcases htell : w.tell event l with ⟨w', f | ⟨⟩⟩ <;>
      simp only [tellCalls, htell, List.mem_cons, List.not_mem_nil, or_false] at hcall
    · exact hcall ▸ List.mem_cons_self
    · rcases hcall with rfl | hcall
      · exact List.mem_cons_self
      · exact List.mem_cons_of_mem _ (ih hcall)

theorem listener_mem_of_commitAllCalls (hcall : call ∈ w.commitAllCalls id cs) :
    call.listener ∈ w.listeners id := by
  induction cs generalizing w with
  | nil => cases hcall
  | cons c rest ih =>
    rw [commitAllCalls, List.mem_append] at hcall
    rcases hcall with hcall | hcall
    · unfold commitCalls at hcall
      cases hevent : c.event? with
      | none => simp [hevent] at hcall
      | some event =>
        simp only [hevent] at hcall
        exact listeners_change w id c id ▸ listener_mem_of_tellCalls hcall
    · rcases hc : w.commit id c with ⟨w', f | ⟨⟩⟩ <;> simp only [hc] at hcall
      · cases hcall
      · have hcommit := (graphs_commit w id c).1
        rw [hc] at hcommit
        exact listeners_of_modify hcommit id ▸ ih hcall

/-- A workspace is met while a graph goes through changes: the first so many are done, and the
other graphs are as they were. -/
def Midway (w : Workspace O) (id : Nat) (cs : List Change) (w' : Workspace O) : Prop :=
  ∃ count, w'.graphs = w.graphs.modify id (Watched.after (cs.take count))

theorem Midway.first (h : w'.graphs = w.graphs.modify id (Watched.after [c])) :
    w.Midway id (c :: cs) w' :=
  ⟨1, h⟩

/-- What is met after the first change is met along the way. -/
theorem Midway.later {w₁ : Workspace O} (h₁ : w₁.graphs = w.graphs.modify id (Watched.after [c]))
    (h : w₁.Midway id cs w') : w.Midway id (c :: cs) w' := by
  obtain ⟨count, h⟩ := h
  refine ⟨count + 1, ?_⟩
  rw [h, h₁, List.modify_modify_eq]
  rfl

/-- **Every call finds** the graphs between two changes, and so they are left behind. -/
theorem midway_commitAll (w : Workspace O) (id : Nat) (cs : List Change) :
    w.Midway id cs (w.commitAll id cs).1 ∧
      ∀ call ∈ w.commitAllCalls id cs, w.Midway id cs call.workspace := by
  induction cs generalizing w with
  | nil =>
    refine ⟨⟨0, ?_⟩, by simp [commitAllCalls]⟩
    exact (List.modify_id id w.graphs).symm
  | cons c rest ih =>
    obtain ⟨hcommit, hcalls⟩ := graphs_commit w id c
    rcases hc : w.commit id c with ⟨w₁, f | ⟨⟩⟩
    · rw [hc] at hcommit
      refine ⟨?_, fun call hcall => ?_⟩
      · simp only [commitAll, hc]
        -- A listener has failed, and the changes that are left are not made.
        exact .first hcommit
      · simp only [commitAllCalls, hc, List.append_nil] at hcall
        exact .first (hcalls call hcall)
    · rw [hc] at hcommit
      obtain ⟨hend, hrest⟩ := ih w₁
      refine ⟨?_, fun call hcall => ?_⟩
      · simp only [commitAll, hc]
        exact .later hcommit hend
      · simp only [commitAllCalls, hc, List.mem_append] at hcall
        rcases hcall with hcall | hcall
        · exact .first (hcalls call hcall)
        · exact .later hcommit (hrest call hcall)

theorem graph_operate_ne (w : Workspace O) (op : Operation) {other : Nat} (ne : id ≠ other) :
    (w.operate id op).1.graph other = w.graph other := by
  obtain ⟨count, h⟩ := (midway_commitAll w id (op.changes (w.graph id))).1
  rw [operate_fst]
  exact graph_of_modify_ne h ne

theorem length_graphs_operate (w : Workspace O) (id : Nat) (op : Operation) :
    (w.operate id op).1.graphs.length = w.graphs.length := by
  obtain ⟨count, h⟩ := (midway_commitAll w id (op.changes (w.graph id))).1
  rw [operate_fst, h, List.length_modify]

theorem Midway.reachable {op : Operation} (h : w.Midway id (op.changes (w.graph id)) w')
    (reachable : ∀ other, (w.graph other).Reachable) (other : Nat) :
    (w'.graph other).Reachable := by
  obtain ⟨count, h⟩ := h
  by_cases hother : id = other
  · subst hother
    by_cases hid : id < w.graphs.length
    · rw [graph_of_modify h hid]
      exact (reachable id).operate op count
    · have hsame : w'.graphs = w.graphs := h.trans (List.modify_eq_self (Nat.le_of_not_lt hid))
      unfold graph
      rw [hsame]
      exact reachable id
  · rw [graph_of_modify_ne h hother]
    exact reachable other

/-! ## Clearing -/

/-- Takes the first edge of a graph so many times, or until there is none. -/
def popTimes (w : Workspace O) (id : Nat) : Nat → Workspace O × Except Failure Unit
  | 0 => (w, .ok ())
  | count + 1 =>
    match w.perform id Graph.popFirst with
    -- no more than a look at the kind: a listener may fail in the same way
    | (w, .error f) => (w, if f.kind = .missing then .ok () else .error f)
    | (w, .ok _) => popTimes w id count

/-- **Clearing a graph** is taking its first edge until there is none, also where a listener ends
it. -/
theorem popEach_eq_clear (h : (w.graph id).WellFormed) :
    w.popTimes id ((w.graph id).edges.size + 1) = w.clear id := by
  unfold OrderedMap.size
  generalize hes : (w.graph id).edges.entries = es
  induction es generalizing w with
  | nil =>
    have hedges : (w.graph id).edgeList = [] := congrArg (List.map Prod.fst) hes
    simp only [popTimes, perform, clear, Graph.clear, Graph.popFirst_of_nil hedges, hedges]
    rfl
  | cons a es ih =>
    have hid : id < w.graphs.length := by
      by_contra hge
      have hnone : w.graphs[id]? = none := List.getElem?_eq_none (Nat.le_of_not_lt hge)
      rw [graph, hnone] at hes
      cases hes
    have hedges : (w.graph id).edgeList = a.1 :: es.map Prod.fst := congrArg (List.map Prod.fst) hes
    have stored : a.1 ∈ (w.graph id).edgeList := by simp [hedges]
    have hcommit := (graphs_commit w id (.removeEdge a.1)).1
    simp only [popTimes, perform, clear, Graph.clear, h.popFirst_eq hes, hedges, List.map_cons,
      commitAll]
    rcases hc : w.commit id (.removeEdge a.1) with ⟨w', f | ⟨⟩⟩
    · rfl
    · rw [hc] at hcommit
      -- no listener has failed, so the loop goes on with what is left of the graph
      have hgraph : w'.graph id = (w.graph id).apply (.removeEdge a.1) := graph_of_modify hcommit hid
      have hentries : (w'.graph id).edges.entries = es := hgraph ▸ Graph.entries_removeFirst hes
      have hwf : (w'.graph id).WellFormed := hgraph ▸ h.removeEdge stored
      have hleft : (w'.graph id).edgeList = es.map Prod.fst := congrArg (List.map Prod.fst) hentries
      have hrest := ih hwf hentries
      simp only [clear, perform, Graph.clear, hleft] at hrest
      exact hrest

end Workspace

end OptimalMatching
