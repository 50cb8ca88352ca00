import OptimalMatching.Proofs.Workspace.Listeners
/-!
# Operations that no listener stops

A listener that fails ends the operation during which it is called. When none does
(`Unhindered`), the operation makes all its changes and comes to its own result, and each listener
is told of each event: the events in order, and for each of them the listeners in order
(`told_calls`).

Operations follow one another in a session (`Workspace.session`), which goes on after an operation
that fails.
-/

namespace OptimalMatching

/-- No listener fails when it is called. -/
def Unhindered {O : Outside} (calls : List (Call O)) : Prop := ∀ call ∈ calls, call.outcome = .ok ()

theorem unhindered_append {O : Outside} {calls calls' : List (Call O)} :
    Unhindered (calls ++ calls') ↔ Unhindered calls ∧ Unhindered calls' :=
  List.forall_mem_append

/-- Who is called, and what for. -/
def Call.told {O : Outside} (call : Call O) : Event × Listener := (call.event, call.listener)

/-- Every listener is told of every event, in the order of the events. -/
def announcements (events : List Event) (ls : List Listener) : List (Event × Listener) :=
  events.flatMap fun event => ls.map fun l => (event, l)

/-- Operations on a graph, one after the other. -/
structure Session (O : Outside) where
  /-- What the operations leave behind. -/
  workspace : Workspace O
  /-- What comes of each operation. -/
  results : List (Except Failure Unit)
  /-- The listeners that are called meanwhile. -/
  calls : List (Call O)

namespace Workspace

variable {O : Outside} {w : Workspace O} {id : Nat} {event : Event} {ls : List Listener}
  {c : Change} {cs cs' : List Change} {op : Operation}

/-- Carries out operations on a graph, whatever comes of them. -/
def session (w : Workspace O) (id : Nat) : List Operation → Session O
  | [] => ⟨w, [], []⟩
  | op :: ops =>
    let (next, result) := w.operate id op
    let rest := next.session id ops
    ⟨rest.workspace, result :: rest.results, w.calls id op ++ rest.calls⟩

/-! ## Changes one after the other -/

/-- When no listener fails at the first change, the others follow. -/
theorem commitAll_cons (h : Unhindered (w.commitCalls id c)) (cs : List Change) :
    w.commitAll id (c :: cs) = (w.commit id c).1.commitAll id cs ∧
      w.commitAllCalls id (c :: cs) =
        w.commitCalls id c ++ (w.commit id c).1.commitAllCalls id cs := by
  have hok := (commit_eq_ok_iff w id c).2 h
  rcases hc : w.commit id c with ⟨w', f | ⟨⟩⟩
  · rw [hc] at hok
    cases hok
  · simp only [commitAll, commitAllCalls, hc, and_self]

theorem unhindered_cons :
    Unhindered (w.commitAllCalls id (c :: cs)) ↔
      Unhindered (w.commitCalls id c) ∧ Unhindered ((w.commit id c).1.commitAllCalls id cs) := by
  constructor
  · intro h
    have hfirst : Unhindered (w.commitCalls id c) := (unhindered_append.1 h).1
    rw [(commitAll_cons hfirst cs).2] at h
    exact unhindered_append.1 h
  · rintro ⟨hfirst, hrest⟩
    rw [(commitAll_cons hfirst cs).2]
    exact unhindered_append.2 ⟨hfirst, hrest⟩

/-- When no listener fails at the first changes, the others follow. -/
theorem commitAll_append (h : Unhindered (w.commitAllCalls id cs)) (cs' : List Change) :
    w.commitAll id (cs ++ cs') = (w.commitAll id cs).1.commitAll id cs' ∧
      w.commitAllCalls id (cs ++ cs') =
        w.commitAllCalls id cs ++ (w.commitAll id cs).1.commitAllCalls id cs' := by
  induction cs generalizing w with
  | nil => exact ⟨rfl, rfl⟩
  | cons c cs ih =>
    obtain ⟨hfirst, hrest⟩ := unhindered_cons.1 h
    obtain ⟨hcommit, hcalls⟩ := ih hrest
    rw [List.cons_append, (commitAll_cons hfirst _).1, (commitAll_cons hfirst _).2, hcommit, hcalls,
      (commitAll_cons hfirst cs).1, (commitAll_cons hfirst cs).2, List.append_assoc]
    exact ⟨rfl, rfl⟩

theorem unhindered_of_append (h : Unhindered (w.commitAllCalls id (cs ++ cs'))) :
    Unhindered (w.commitAllCalls id cs) := by
  induction cs generalizing w with
  | nil => exact fun call hcall => by cases hcall
  | cons c cs ih =>
    obtain ⟨hfirst, hrest⟩ := unhindered_cons.1 h
    exact unhindered_cons.2 ⟨hfirst, ih hrest⟩

/-! ## What is told -/

theorem told_tellCalls (h : Unhindered (w.tellCalls event ls)) :
    (w.tellCalls event ls).map Call.told = ls.map fun l => (event, l) := by
  induction ls generalizing w with
  | nil => rfl
  | cons l rest ih =>
    have hl : (w.tell event l).2 = .ok () := h ⟨w, event, l⟩ List.mem_cons_self
    rcases htell : w.tell event l with ⟨w', f | ⟨⟩⟩
    · rw [htell] at hl
      cases hl
    · simp only [tellCalls, htell, List.map_cons] at h ⊢
      rw [ih fun call hcall => h call (List.mem_cons_of_mem _ hcall)]
      rfl

theorem told_commitCalls (h : Unhindered (w.commitCalls id c)) :
    (w.commitCalls id c).map Call.told = announcements c.event?.toList (w.listeners id) := by
  unfold commitCalls at h ⊢
  cases hevent : c.event? with
  | none => rfl
  | some event =>
    simp only [hevent] at h ⊢
    rw [told_tellCalls h, listeners_change]
    exact (List.flatMap_singleton ..).symm

theorem told_commitAllCalls (h : Unhindered (w.commitAllCalls id cs)) :
    (w.commitAllCalls id cs).map Call.told =
      announcements (cs.filterMap Change.event?) (w.listeners id) := by
  induction cs generalizing w with
  | nil => rfl
  | cons c cs ih =>
    obtain ⟨hfirst, hrest⟩ := unhindered_cons.1 h
    have hlisteners : (w.commit id c).1.listeners id = w.listeners id :=
      listeners_of_modify (graphs_commit w id c).1 id
    rw [(commitAll_cons hfirst cs).2, List.map_append, told_commitCalls hfirst, ih hrest,
      hlisteners, Change.events_cons]
    exact List.flatMap_append.symm

/-! ## What an unhindered operation leaves behind -/

theorem graphs_commitAll (h : Unhindered (w.commitAllCalls id cs)) :
    (w.commitAll id cs).1.graphs = w.graphs.modify id (Watched.after cs) := by
  induction cs generalizing w with
  | nil => exact (List.modify_id id w.graphs).symm
  | cons c cs ih =>
    obtain ⟨hfirst, hrest⟩ := unhindered_cons.1 h
    rw [(commitAll_cons hfirst cs).1, ih hrest, (graphs_commit w id c).1, List.modify_modify_eq]
    rfl

theorem result_operate (h : Unhindered (w.calls id op)) :
    (w.operate id op).2 = (op.edit (w.graph id)).result := by
  rw [operate_of_ok (Prod.ext rfl (commitAll_eq_ok_iff.2 h))]

theorem graph_operate (h : Unhindered (w.calls id op)) (hid : id < w.graphs.length) :
    (w.operate id op).1.graph id = (w.graph id).applyAll (op.changes (w.graph id)) := by
  rw [operate_fst]
  exact graph_of_modify (graphs_commitAll h) hid

theorem told_calls (h : Unhindered (w.calls id op)) :
    (w.calls id op).map Call.told =
      announcements ((op.changes (w.graph id)).filterMap Change.event?) (w.listeners id) :=
  told_commitAllCalls h

/-- An operation that makes the changes of two others, and comes to what the second comes to, is
carried out as these two, one after the other. -/
theorem operate_both (hid : id < w.graphs.length) {first second : Operation}
    (hchanges : op.changes (w.graph id) = first.changes (w.graph id) ++
      second.changes ((w.graph id).applyAll (first.changes (w.graph id))))
    (hresult : (op.edit (w.graph id)).result =
      (second.edit ((w.graph id).applyAll (first.changes (w.graph id)))).result)
    (h : Unhindered (w.calls id op)) :
    w.operate id op = (w.operate id first).1.operate id second ∧
      w.calls id op = w.calls id first ++ (w.operate id first).1.calls id second := by
  -- As no listener fails, the second operation meets the graph that the first one leaves.
  have hfirst : Unhindered (w.calls id first) := by
    rw [calls, hchanges] at h
    exact unhindered_of_append h
  have hgraph := graph_operate hfirst hid
  obtain ⟨hcommit, hcalls⟩ := commitAll_append hfirst
    (second.changes ((w.operate id first).1.graph id))
  rw [hgraph, ← hchanges, ← operate_fst, ← hgraph] at hcommit hcalls
  have hcalls : w.calls id op = w.calls id first ++ (w.operate id first).1.calls id second := hcalls
  have hsecond : Unhindered ((w.operate id first).1.calls id second) :=
    (unhindered_append.1 (hcalls ▸ h)).2
  refine ⟨Prod.ext ?_ ?_, hcalls⟩
  · rw [operate_fst, operate_fst]
    exact congrArg Prod.fst hcommit
  · rw [result_operate h, result_operate hsecond, hgraph, hresult]

/-! ## Sessions -/

theorem graph_session_ne (w : Workspace O) (ops : List Operation) {other : Nat} (ne : id ≠ other) :
    (w.session id ops).workspace.graph other = w.graph other := by
  induction ops generalizing w with
  | nil => rfl
  | cons op ops ih => exact (ih _).trans (graph_operate_ne w op ne)

theorem listener_mem_of_session (w : Workspace O) (ops : List Operation) :
    ∀ call ∈ (w.session id ops).calls, call.listener ∈ w.listeners id := by
  induction ops generalizing w with
  | nil => exact fun call hcall => by cases hcall
  | cons op ops ih =>
    intro call hcall
    rcases List.mem_append.1 hcall with hcall | hcall
    · exact listener_mem_of_commitAllCalls hcall
    · exact listeners_operate w id op id ▸ ih _ call hcall

theorem unhindered_of_recorders (h : ∀ l ∈ w.listeners id, ∃ r, l = .recorder r)
    (ops : List Operation) : Unhindered (w.session id ops).calls := by
  intro call hcall
  obtain ⟨r, hr⟩ := h _ (listener_mem_of_session w ops call hcall)
  unfold Call.outcome
  rw [hr]
  rfl

end Workspace

end OptimalMatching
