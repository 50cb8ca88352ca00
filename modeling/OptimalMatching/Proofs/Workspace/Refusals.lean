import OptimalMatching.Proofs.Graph.Refusals
import OptimalMatching.Proofs.Workspace.Reachable
import OptimalMatching.Proofs.Workspace.Sessions
/-!
# A refusal leaves nothing behind

When no listener fails, what comes of an operation is the operation's own result, and this fails
exactly for the reasons for which the operation is refused. Then nothing has changed and nobody has
been told of anything: the workspace is the one from before.

Only an update has more to it, because it stores one weight after the other. At the first that it
cannot store it has done, and has told the listeners, exactly what storing the earlier ones one by
one would have done (`Workspace.operate_update`).
-/

namespace OptimalMatching

namespace Workspace

variable {O : Outside} {w : Workspace O} {id : Nat} {op : Operation} {f : Failure}

/-- Nothing happens without a change. -/
theorem calls_of_changes_eq_nil (h : op.changes (w.graph id) = []) :
    w.operate id op = (w, (op.edit (w.graph id)).result) ∧ w.calls id op = [] := by
  constructor
  · refine operate_of_ok ?_
    rw [h]
    rfl
  · rw [calls, h]
    rfl

/-- A weight is stored, and the update goes on with the others. -/
theorem operate_update_cons (hid : id < w.graphs.length) (wf : (w.graph id).WellFormed)
    {a : Key × Weight} {rest : List (Key × Weight)} (ha : Storable a.1)
    (h : Unhindered (w.calls id (.update (a :: rest)))) :
    w.operate id (.update (a :: rest)) =
        (w.operate id (.set a.1 a.2)).1.operate id (.update rest) ∧
      w.calls id (.update (a :: rest)) =
        w.calls id (.set a.1 a.2) ++ (w.operate id (.set a.1 a.2)).1.calls id (.update rest) := by
  obtain ⟨⟨⟩, hok⟩ := (wf.set_refusedFor a.1 a.2).exists_ok fun _ => ha.not_unstorable
  have hupdate := Graph.update_cons hok rest
  have hresult : ((w.graph id).update (a :: rest)).result = _ := congrArg Edit.result hupdate
  exact operate_both hid (congrArg Edit.changes hupdate) hresult h

/-- **An update that stops** has done what storing the earlier weights one by one does. -/
theorem operate_update (hid : id < w.graphs.length) (wf : (w.graph id).WellFormed)
    {before after : List (Key × Weight)} {a : Key × Weight} (hbefore : ∀ b ∈ before, Storable b.1)
    (ha : Unstorable a.1 f) (h : Unhindered (w.calls id (.update (before ++ a :: after)))) :
    let stored := w.session id (before.map fun b => .set b.1 b.2)
    w.operate id (.update (before ++ a :: after)) = (stored.workspace, .error f) ∧
      w.calls id (.update (before ++ a :: after)) = stored.calls ∧
      ∀ result ∈ stored.results, result = .ok () := by
  -- the first weight is stored, and the others meet the graph that holds it
  induction before generalizing w with
  | nil =>
    have hset := wf.set_refusedFor a.1 a.2
    have hfails := hset.result_iff.2 ha
    have hupdate := Graph.update_cons_of_error hfails after
    rw [hset.changes_eq hfails] at hupdate
    have hnone : Operation.changes (w.graph id) (.update (a :: after)) = [] :=
      congrArg Edit.changes hupdate
    obtain ⟨hoperate, hcalls⟩ := calls_of_changes_eq_nil hnone
    refine ⟨hoperate.trans ?_, hcalls, by simp [session]⟩
    exact congrArg (Prod.mk w) (congrArg Edit.result hupdate)
  | cons b before ih =>
    obtain ⟨hb, hbefore⟩ := List.forall_mem_cons.1 hbefore
    obtain ⟨hoperate, hcalls⟩ := operate_update_cons hid wf hb h
    obtain ⟨hstart, hrest⟩ := unhindered_append.1 (hcalls ▸ h)
    obtain ⟨⟨⟩, hok⟩ := (wf.set_refusedFor b.1 b.2).exists_ok fun _ => hb.not_unstorable
    have wf' : ((w.operate id (.set b.1 b.2)).1.graph id).WellFormed := by
      rw [graph_operate hstart hid]
      exact wf.applyAll (wf.allFit _)
    have hid' : id < (w.operate id (.set b.1 b.2)).1.graphs.length := by
      rwa [length_graphs_operate]
    obtain ⟨hoperate', hcalls', hresults⟩ := ih hid' wf' hbefore hrest
    refine ⟨hoperate.trans hoperate', hcalls.trans (congrArg _ hcalls'), ?_⟩
    exact List.forall_mem_cons.2 ⟨(result_operate hstart).trans hok, hresults⟩

/-- **Main result.** When no listener fails, an operation fails exactly for the reasons for which it
is refused. An operation other than an update that is refused leaves the workspace as it is and
calls nobody. An update that is refused has done and has told what storing the weights before the
one that is refused does and tells, and none of these is refused. -/
theorem refusals_leave_nothing (hid : id < w.graphs.length) (reachable : (w.graph id).Reachable) :
    (∀ op, Unhindered (w.calls id op) →
      ∀ f, (w.operate id op).2 = .error f ↔ op.Refused (w.graph id) f) ∧
    (∀ op f, (∀ entries, op ≠ .update entries) → op.Refused (w.graph id) f →
      w.operate id op = (w, .error f) ∧ w.calls id op = []) ∧
    ∀ before a after f, (∀ b ∈ before, Storable b.1) → Unstorable a.1 f →
      Unhindered (w.calls id (.update (before ++ a :: after))) →
      let stored := w.session id (before.map fun b => .set b.1 b.2)
      w.operate id (.update (before ++ a :: after)) = (stored.workspace, .error f) ∧
        w.calls id (.update (before ++ a :: after)) = stored.calls ∧
        ∀ result ∈ stored.results, result = .ok () := by
  have wf := reachable.wellFormed
  refine ⟨fun op h f => ?_, fun op f other hf => ?_,
    fun before a after f hbefore ha h => operate_update hid wf hbefore ha h⟩
  · rw [result_operate h]
    exact wf.result_edit_iff op
  · have hrefused := wf.edit_refusedFor other
    have hfails := hrefused.result_iff.2 hf
    have hnone : op.changes (w.graph id) = [] := by
      rw [← Operation.changes_edit]
      exact hrefused.changes_eq hfails
    obtain ⟨hoperate, hcalls⟩ := calls_of_changes_eq_nil hnone
    exact ⟨hoperate.trans (congrArg _ hfails), hcalls⟩

/-- An edge, and a recorder that was told of it. -/
def attended : Workspace .plain :=
  let start := (Workspace.empty.addGraph (.empty false)).1.addRecorder.1.register 0 (.recorder 0)
  (start.operate 0 (.addEdge (.int 1) (.int 2) (.int 4))).1

/-- The second of three entries is a loop. -/
def loopWithin : List (Key × Weight) :=
  [(.tuple [.int 3, .int 2], .int 5), (.tuple [.int 4, .int 4], .int 6),
    (.tuple [.int 5, .int 6], .int 7)]

theorem refusals_leave_nothing_attended :
    (attended.graph 0).Reachable ∧
      attended.operate 0 (.set (.tuple [.int 3, .int 3]) (.int 5)) =
        (attended, .error (.loop ⟨.int 3, .int 3⟩)) ∧
      attended.operate 0 (.pop (.text "12") none) = (attended, .error .malformedKey) ∧
      attended.operate 0 (.delete (.tuple [.int 2, .int 3])) =
        (attended, .error (.absent (.tuple [.int 2, .int 3]))) ∧
      (∀ f, (attended.operate 0 (.delete (.tuple [.int 2, .int 1]))).2 ≠ .error f) ∧
      attended.operate 0 (.update loopWithin) =
        ((attended.session 0 [.set (.tuple [.int 3, .int 2]) (.int 5)]).workspace,
          .error (.loop ⟨.int 4, .int 4⟩)) ∧
      (attended.operate 0 (.update loopWithin)).1.recorded 0 =
        [.vertexAdded (.int 1), .vertexAdded (.int 2), .edgeAdded ⟨.int 1, .int 2⟩,
          .vertexAdded (.int 3), .edgeAdded ⟨.int 3, .int 2⟩] := by
  have start : ((Workspace.empty : Workspace .plain).addGraph (.empty false)).1.Reachable :=
    .addGraph .empty (rfl : Graph.ofEntries false [] = .ok (.empty false))
  have reachable : attended.Reachable :=
    .operate 0 _ (.register 0 (.addRecorder start) (show 0 < 1 by decide))
  have reachable := reachable.graphs 0
  obtain ⟨hfails, hrefused, hupdate⟩ :=
    refusals_leave_nothing (show 0 < attended.graphs.length by decide) reachable
  have loop : Operation.Refused (attended.graph 0) (.loop ⟨.int 3, .int 3⟩)
      (.set (.tuple [.int 3, .int 3]) (.int 5)) := Or.inr ⟨.int 3, rfl, rfl⟩
  have noPair : Operation.Refused (attended.graph 0) .malformedKey (.pop (.text "12") none) :=
    Or.inl ⟨by simp [Edge.toKey], rfl⟩
  have noEdge : Operation.Refused (attended.graph 0) (.absent (.tuple [.int 2, .int 3]))
      (.delete (.tuple [.int 2, .int 3])) :=
    Or.inr ⟨.int 2, .int 3, rfl, by decide +kernel, rfl⟩
  refine ⟨reachable, (hrefused _ _ (by simp) loop).1, (hrefused _ _ (by simp) noPair).1,
    (hrefused _ _ (by simp) noEdge).1, fun f hf => ?_, ?_, by decide +kernel⟩
  · have unnamed : (attended.graph 0).Unnamed (Edge.toKey ⟨.int 2, .int 1⟩) f :=
      (hfails _ (commitAll_eq_ok_iff.1 rfl) f).1 hf
    have hnone := (reachable.wellFormed.unnamed_toKey_iff.1 unnamed).1
    revert hnone
    decide +kernel
  · refine (hupdate [(.tuple [.int 3, .int 2], .int 5)] (.tuple [.int 4, .int 4], .int 6)
      [(.tuple [.int 5, .int 6], .int 7)] (.loop ⟨.int 4, .int 4⟩) ?_ (.inr ⟨.int 4, rfl, rfl⟩)
      (commitAll_eq_ok_iff.1 rfl)).1
    exact List.forall_mem_singleton.2 ⟨.int 3, .int 2, by decide, rfl⟩

end Workspace

end OptimalMatching
