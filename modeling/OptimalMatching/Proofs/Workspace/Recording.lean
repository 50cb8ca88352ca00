import OptimalMatching.Proofs.Graph.Roster
import OptimalMatching.Proofs.Workspace.Listeners
/-!
# What a recorder has been told

A recorder is registered with a graph that has no vertices and no listeners yet. After that anything
may be done in the workspace, except that this recorder is registered once more or taken back
(`Workspace.Records`).

**Told first.** The recorder stands in front of all other listeners of its graph, and nowhere else.
So it is told of every change of the graph once, also when a later listener fails and cuts the
operation short, and of nothing else (`recorded_commitAll`).

**Rebuilt.** The events that it has been told therefore lead from a blank roster to the vertices and
edges of the graph, and each of them makes sense when it is told (`recording_rebuilds_graph`).
-/

namespace OptimalMatching

namespace Workspace

variable {O : Outside} {w w' : Workspace O} {id r : Nat} {event : Event} {l : Listener}
  {ls : List Listener} {c : Change} {cs : List Change}

/-- The workspaces in which a recorder has been registered with a graph, and with nothing else,
since the graph was empty. -/
inductive Records (id r : Nat) : Workspace O → Prop where
  | start {w : Workspace O} :
      w.Reachable → id < w.graphs.length → (w.graph id).vertices = [] → w.listeners id = [] →
        w.recorders.length = r → Records id r (w.addRecorder.1.register id (.recorder r))
  | addGraph {w : Workspace O} (g : Graph) : Records id r w → Records id r (w.addGraph g).1
  | addCache {w : Workspace O} (source : Nat) : Records id r w → Records id r (w.addCache source).1
  | addRecorder {w : Workspace O} : Records id r w → Records id r w.addRecorder.1
  | addGuest {w : Workspace O} (guest : O.Guest) :
      Records id r w → Records id r (w.addGuest guest).1
  | register {w : Workspace O} {l : Listener} (other : Nat) :
      Records id r w → l ≠ .recorder r → Records id r (w.register other l)
  | unregister {w : Workspace O} {l : Listener} (other : Nat) :
      Records id r w → l ≠ .recorder r → Records id r (w.unregister other l).1
  | consult {w : Workspace O} {α : Type} (cache : Nat)
      (f : Neighborhoods O.bags → Graph → Neighborhoods O.bags × Except Failure α) :
      Records id r w → Records id r (w.withCache cache f).1
  | operate {w : Workspace O} (other : Nat) (op : Operation) :
      Records id r w → Records id r (w.operate other op).1

/-! ## Told once -/

theorem recorded_tell_ne (ne : l ≠ .recorder r) (w : Workspace O) (event : Event) :
    (w.tell event l).1.recorded r = w.recorded r := by
  cases l with
  | cache k => rfl
  | recorder k =>
    have hk : k ≠ r := fun heq => ne (congrArg Listener.recorder heq)
    unfold recorded tell
    rw [List.getElem?_modify_ne _ _ hk]
  | guest k =>
    obtain ⟨guests, -, htold⟩ := w.tellGuest_fst k event
    rw [tell, htold]
    rfl

theorem recorded_tellAll_of_notMem (h : .recorder r ∉ ls) (w : Workspace O) (event : Event) :
    (w.tellAll event ls).1.recorded r = w.recorded r := by
  refine (tellAll_keeps (P := fun w' => w'.recorded r = w.recorded r) ?_ rfl).1
  intro l hl w' hw'
  exact (recorded_tell_ne (fun heq => h (heq ▸ hl)) w' event).trans hw'

/-- The recorder that stands in front is told. -/
theorem recorded_tellAll (hr : r < w.recorders.length) (h : .recorder r ∉ ls) (event : Event) :
    (w.tellAll event (.recorder r :: ls)).1.recorded r = w.recorded r ++ [event] := by
  show (Workspace.tellAll _ event ls).1.recorded r = _
  rw [recorded_tellAll_of_notMem h]
  unfold recorded
  rw [List.getElem?_modify_eq, List.getElem?_eq_getElem hr]
  rfl

theorem recorded_commit (hr : r < w.recorders.length) (hls : w.listeners id = .recorder r :: ls)
    (h : .recorder r ∉ ls) (c : Change) :
    (w.commit id c).1.recorded r = w.recorded r ++ c.event?.toList := by
  unfold commit
  cases c.event? with
  | none => exact (List.append_nil _).symm
  | some event =>
    dsimp only
    rw [listeners_change, hls]
    exact recorded_tellAll (w := w.change id c) hr h event

/-- **The changes that are made** are the changes that the recorder is told of, whether or not a
later listener fails. -/
theorem recorded_commitAll (hid : id < w.graphs.length) (hr : w.Knows (.recorder r))
    (hls : w.listeners id = .recorder r :: ls) (h : .recorder r ∉ ls) (cs : List Change) :
    ∃ count, (w.commitAll id cs).1.graph id = (w.graph id).applyAll (cs.take count) ∧
      (w.commitAll id cs).1.recorded r =
        w.recorded r ++ (cs.take count).filterMap Change.event? := by
  induction cs generalizing w with
  | nil => exact ⟨0, rfl, (List.append_nil _).symm⟩
  | cons c rest ih =>
    have hgraphs := (graphs_commit w id c).1
    have hgraph := graph_of_modify hgraphs hid
    have hlisteners := listeners_of_modify hgraphs id
    have hrecorded := recorded_commit hr hls h c
    have hknows : (w.commit id c).1.Knows (.recorder r) :=
      commit_keeps (P := fun w' => w'.Knows (.recorder r))
        (fun _ h' => h'.of_same rfl rfl rfl)
        (fun _ h' l _ event => h'.tell event l) hr
    rcases hc : w.commit id c with ⟨w₁, f | ⟨⟩⟩ <;>
      rw [hc] at hgraphs hgraph hlisteners hrecorded hknows
    · -- A later listener fails, and by then the recorder has been told.
      refine ⟨1, ?_, ?_⟩
      · simp only [commitAll, hc]
        exact hgraph
      · simp only [commitAll, hc, List.take_succ_cons, List.take_zero, Change.events_cons]
        rw [hrecorded, List.filterMap_nil, List.append_nil]
    · have hid₁ : id < w₁.graphs.length := by
        rw [hgraphs, List.length_modify]
        exact hid
      obtain ⟨count, hend, htold⟩ := ih hid₁ hknows (hlisteners.trans hls)
      refine ⟨count + 1, ?_, ?_⟩
      · simp only [commitAll, hc]
        rw [hend, hgraph]
        rfl
      · simp only [commitAll, hc, List.take_succ_cons, Change.events_cons]
        rw [htold, hrecorded, List.append_assoc]

/-! ## The events rebuild the graph -/

/-- A recorder stands in front of the listeners of a graph, and nowhere else, and the events that it
has been told lead to the vertices and edges of the graph. -/
structure Tracks (id r : Nat) (w : Workspace O) : Prop where
  id_lt : id < w.graphs.length
  knows : w.Knows (.recorder r)
  wellFormed : (w.graph id).WellFormed
  first : ∃ ls, w.listeners id = .recorder r :: ls ∧ .recorder r ∉ ls
  notElsewhere : ∀ other, other ≠ id → .recorder r ∉ w.listeners other
  rebuilt : Roster.blank.follow? (w.recorded r) = some (.ofGraph (w.graph id))

namespace Tracks

/-- What leaves the graph, the recorder and the listeners leaves the recorder on track. -/
theorem of_same (h : Tracks id r w) (hid : id < w'.graphs.length)
    (hknows : w'.Knows (.recorder r)) (hgraph : w'.graph id = w.graph id)
    (hlisteners : ∀ other, w'.listeners other = w.listeners other)
    (hrecorded : w'.recorded r = w.recorded r) : Tracks id r w' where
  id_lt := hid
  knows := hknows
  wellFormed := hgraph ▸ h.wellFormed
  first := by
    rw [hlisteners]
    exact h.first
  notElsewhere other ne := by
    rw [hlisteners]
    exact h.notElsewhere other ne
  rebuilt := by
    rw [hgraph, hrecorded]
    exact h.rebuilt

theorem start (h : w.Reachable) (hid : id < w.graphs.length) (hv : (w.graph id).vertices = [])
    (hnone : w.listeners id = []) (hr : w.recorders.length = r) :
    Tracks id r (w.addRecorder.1.register id (.recorder r)) := by
  have hlisteners : ∀ other, (w.addRecorder.1.register id (.recorder r)).listeners other =
      if id = other then w.listeners other ++ [.recorder r] else w.listeners other :=
    listeners_register (w := w.addRecorder.1) hid (.recorder r)
  have hwf := (h.graphs id).wellFormed
  -- The number of the recorder is new, so nobody has registered it before.
  have hfresh : ∀ other, .recorder r ∉ w.listeners other := fun other hmem =>
    Nat.lt_irrefl _ (hr ▸ h.knows hmem)
  constructor
  case id_lt =>
    show id < (w.graphs.modify id _).length
    rw [List.length_modify]
    exact hid
  case knows =>
    show r < (w.recorders ++ [[]]).length
    rw [List.length_append, hr]
    exact Nat.lt_succ_self r
  case wellFormed =>
    rw [graph_register]
    exact hwf
  case first =>
    refine ⟨[], ?_, List.not_mem_nil⟩
    rw [hlisteners, if_pos rfl, hnone]
    rfl
  case notElsewhere =>
    intro other ne
    rw [hlisteners, if_neg (Ne.symm ne)]
    exact hfresh other
  case rebuilt =>
    have hrecorded : (w.addRecorder.1.register id (.recorder r)).recorded r = [] := by
      subst hr
      simp [recorded, Workspace.register, Workspace.addRecorder]
    have hgraph : (w.addRecorder.1.register id (.recorder r)).graph id = w.graph id :=
      graph_register ..
    rw [hrecorded, hgraph, Roster.ofGraph_eq_blank hwf hv]
    rfl

theorem addGraph (h : Tracks id r w) (g : Graph) : Tracks id r (w.addGraph g).1 := by
  refine h.of_same ?_ h.knows ?_ (fun other => listeners_addGraph w g other) rfl
  · show id < (w.graphs ++ [_]).length
    rw [List.length_append]
    exact Nat.lt_succ_of_lt h.id_lt
  · rw [graph_addGraph, if_neg (Nat.ne_of_lt h.id_lt)]

theorem addRecorder (h : Tracks id r w) : Tracks id r w.addRecorder.1 := by
  have hr : r < w.recorders.length := h.knows
  refine h.of_same h.id_lt ?_ rfl (fun _ => rfl) ?_
  · exact h.knows.mono (Nat.le_refl _) (by simp [Workspace.addRecorder]) (Nat.le_refl _)
  · unfold recorded Workspace.addRecorder
    rw [List.getElem?_append_left hr]

theorem register (h : Tracks id r w) (ne : l ≠ .recorder r) (other : Nat) :
    Tracks id r (w.register other l) := by
  rcases Nat.lt_or_ge other w.graphs.length with hother | hother
  · have hlisteners := listeners_register hother l
    obtain ⟨ls, hls, hnot⟩ := h.first
    constructor
    case id_lt =>
      show id < (w.graphs.modify other _).length
      rw [List.length_modify]
      exact h.id_lt
    case knows => exact h.knows.of_same rfl rfl rfl
    case wellFormed =>
      rw [graph_register]
      exact h.wellFormed
    case first =>
      rw [hlisteners]
      split_ifs
      · refine ⟨ls ++ [l], by rw [hls]; rfl, ?_⟩
        simpa [hnot] using ne.symm
      · exact ⟨ls, hls, hnot⟩
    case notElsewhere =>
      intro x hx
      rw [hlisteners]
      split_ifs
      · simpa [h.notElsewhere x hx] using ne.symm
      · exact h.notElsewhere x hx
    case rebuilt =>
      rw [graph_register]
      exact h.rebuilt
  · refine h.of_same ?_ (h.knows.of_same rfl rfl rfl) (graph_register ..)
      (fun x => listeners_register_of_le hother l x) rfl
    show id < (w.graphs.modify other _).length
    rw [List.length_modify]
    exact h.id_lt

theorem unregister (h : Tracks id r w) (ne : l ≠ .recorder r) (other : Nat) :
    Tracks id r (w.unregister other l).1 := by
  have hlisteners := listeners_unregister w other l
  have hsame : (w.unregister other l).1.graphs.length = w.graphs.length ∧
      (w.unregister other l).1.recorders = w.recorders := by
    unfold Workspace.unregister
    split_ifs
    · exact ⟨List.length_modify .., rfl⟩
    · exact ⟨rfl, rfl⟩
  obtain ⟨ls, hls, hnot⟩ := h.first
  constructor
  case id_lt => exact hsame.1 ▸ h.id_lt
  case knows =>
    show r < (w.unregister other l).1.recorders.length
    rw [hsame.2]
    exact h.knows
  case wellFormed =>
    rw [graph_unregister]
    exact h.wellFormed
  case first =>
    rw [hlisteners]
    split_ifs
    · refine ⟨ls.erase l, ?_, fun hmem => hnot (List.mem_of_mem_erase hmem)⟩
      rw [hls, List.erase_cons_tail (by simpa using ne.symm)]
    · exact ⟨ls, hls, hnot⟩
  case notElsewhere =>
    intro x hx hmem
    rw [hlisteners] at hmem
    split_ifs at hmem
    · exact h.notElsewhere x hx (List.mem_of_mem_erase hmem)
    · exact h.notElsewhere x hx hmem
  case rebuilt =>
    have hrecorded : (w.unregister other l).1.recorded r = w.recorded r := by
      unfold recorded
      rw [hsame.2]
    rw [graph_unregister, hrecorded]
    exact h.rebuilt

/-! ### Operations -/

/-- What is done to other graphs is not told the recorder. -/
theorem operateElsewhere (h : Tracks id r w) {other : Nat} (ne : other ≠ id) (op : Operation) :
    Tracks id r (w.operate other op).1 := by
  have hkept : (w.commitAll other (op.changes (w.graph other))).1.recorded r = w.recorded r ∧
      (w.commitAll other (op.changes (w.graph other))).1.listeners other = w.listeners other := by
    refine commitAll_keeps
      (P := fun w' => w'.recorded r = w.recorded r ∧ w'.listeners other = w.listeners other)
      (fun w' c hw' => ⟨hw'.1, (listeners_change ..).trans hw'.2⟩) ?_ _ ⟨rfl, rfl⟩
    intro w' hw' l hl event
    have ne' : l ≠ .recorder r := fun heq => h.notElsewhere other ne (hw'.2 ▸ heq ▸ hl)
    exact ⟨(recorded_tell_ne ne' w' event).trans hw'.1, (listeners_tell ..).trans hw'.2⟩
  rw [← operate_fst] at hkept
  refine h.of_same ?_ (h.knows.operate other op) (graph_operate_ne w op ne)
    (listeners_operate w other op) hkept.1
  rw [length_graphs_operate]
  exact h.id_lt

/-- The recorder is told of what an operation does, change by change. -/
theorem exists_made (h : Tracks id r w) (op : Operation) :
    ∃ count, (w.operate id op).1.graph id =
        (w.graph id).applyAll ((op.changes (w.graph id)).take count) ∧
      (w.operate id op).1.recorded r = w.recorded r ++
        ((op.changes (w.graph id)).take count).filterMap Change.event? := by
  obtain ⟨ls, hls, hnot⟩ := h.first
  rw [operate_fst]
  exact recorded_commitAll h.id_lt h.knows hls hnot _

/-- **An operation** on the graph keeps the recorder on track. -/
theorem operate (h : Tracks id r w) (op : Operation) : Tracks id r (w.operate id op).1 := by
  have hlisteners := listeners_operate w id op
  obtain ⟨count, hgraph, hrecorded⟩ := h.exists_made op
  constructor
  case id_lt =>
    rw [length_graphs_operate]
    exact h.id_lt
  case knows => exact h.knows.operate id op
  case wellFormed =>
    rw [hgraph]
    exact h.wellFormed.applyAll ((h.wellFormed.allFit op).take count)
  case first =>
    rw [hlisteners]
    exact h.first
  case notElsewhere =>
    intro other ne
    rw [hlisteners]
    exact h.notElsewhere other ne
  case rebuilt =>
    rw [hrecorded, Roster.follow?_append, h.rebuilt, hgraph]
    exact Roster.follow?_operation h.wellFormed op count

end Tracks

/-- **A recorder that has been registered** with an empty graph stays on track. -/
theorem Records.tracks (h : Records id r w) : Tracks id r w := by
  induction h with
  | start reachable hid hv hnone hr => exact .start reachable hid hv hnone hr
  | addGraph g _ ih => exact ih.addGraph g
  | addCache source _ ih =>
    exact ih.of_same ih.id_lt
      (ih.knows.mono (by simp [Workspace.addCache]) (Nat.le_refl _) (Nat.le_refl _)) rfl
      (fun _ => rfl) rfl
  | addRecorder _ ih => exact ih.addRecorder
  | addGuest _ _ ih =>
    exact ih.of_same ih.id_lt
      (ih.knows.mono (Nat.le_refl _) (Nat.le_refl _) (by simp [Workspace.addGuest])) rfl
      (fun _ => rfl) rfl
  | register other _ ne ih => exact ih.register ne other
  | unregister other _ ne ih => exact ih.unregister ne other
  | consult cache f _ ih =>
    exact ih.of_same ih.id_lt (ih.knows.consult cache f) rfl (fun _ => rfl) rfl
  | operate other op _ ih =>
    by_cases hother : other = id
    · subst hother
      exact ih.operate op
    · exact ih.operateElsewhere hother op

/-- **Rebuilt from its events.** What a recorder has been told leads from a blank roster to the
vertices and edges of the graph. Whatever is done to the graph next, the changes that it goes
through are the changes that the recorder is told of, each of them once. A new weight for a stored
edge, whichever way round it is named, is not told. -/
theorem recording_rebuilds_graph (h : Records id r w) :
    Roster.blank.follow? (w.recorded r) = some (.ofGraph (w.graph id)) ∧
    (∀ op, ∃ count,
      (w.operate id op).1.graph id =
        (w.graph id).applyAll ((op.changes (w.graph id)).take count) ∧
      (w.operate id op).1.recorded r = w.recorded r ++
        ((op.changes (w.graph id)).take count).filterMap Change.event?) ∧
    ∀ e ∈ (w.graph id).edgeList, ∀ u v, (w.graph id).Joins e u v → ∀ x,
      (w.operate id (.set (Edge.toKey ⟨u, v⟩) x)).1.recorded r = w.recorded r ∧
      (w.operate id (.addEdge u v x)).1.recorded r = w.recorded r := by
  have tracks := h.tracks
  refine ⟨tracks.rebuilt, tracks.exists_made, ?_⟩
  intro e he u v hj x
  have hput := tracks.wellFormed.put_of_joins he hj x
  have silent : ∀ op : Operation, op.changes (w.graph id) = [.reweigh e x] →
      (w.operate id op).1.recorded r = w.recorded r := by
    intro op hop
    obtain ⟨count, -, htold⟩ := tracks.exists_made op
    rw [htold, hop]
    cases count <;> simp [Change.event?]
  exact ⟨silent _ (congrArg Edit.changes hput), silent _ (congrArg Edit.changes hput)⟩

/-- A recorder is registered with an undirected graph before anything is stored in it. Three edges
are stored, one gets a new weight under its name the other way round, and a vertex of two edges is
removed. An edge that is not there cannot be removed. -/
def diary : Workspace .plain :=
  let start := (Workspace.empty.addGraph (.empty false)).1.addRecorder.1.register 0 (.recorder 0)
  let stored := (start.operate 0 (.update [(.tuple [.int 1, .int 2], .int 4),
    (.tuple [.int 2, .int 3], .int 5), (.tuple [.int 1, .int 3], .int 6)])).1
  let reweighed := (stored.operate 0 (.set (.tuple [.int 2, .int 1]) (.int 7))).1
  let removed := (reweighed.operate 0 (.removeVertex (.int 2))).1
  (removed.operate 0 (.delete (.tuple [.int 2, .int 3]))).1

theorem recording_rebuilds_graph_diary :
    Records 0 0 diary ∧
      diary.recorded 0 =
        [.vertexAdded (.int 1), .vertexAdded (.int 2), .edgeAdded ⟨.int 1, .int 2⟩,
          .vertexAdded (.int 3), .edgeAdded ⟨.int 2, .int 3⟩, .edgeAdded ⟨.int 1, .int 3⟩,
          .edgeRemoved ⟨.int 1, .int 2⟩, .edgeRemoved ⟨.int 2, .int 3⟩, .vertexRemoved (.int 2)] ∧
      Roster.blank.follow? (diary.recorded 0) = some (.ofGraph (diary.graph 0)) ∧
      Roster.ofGraph (diary.graph 0) = ⟨[.int 1, .int 3], [⟨.int 1, .int 3⟩]⟩ ∧
      (diary.operate 0 (.set (.tuple [.int 3, .int 1]) (.int 8))).1.recorded 0 =
        diary.recorded 0 := by
  have reachable : ((Workspace.empty : Workspace .plain).addGraph (.empty false)).1.Reachable :=
    .addGraph .empty (rfl : Graph.ofEntries false [] = .ok (.empty false))
  have records : Records 0 0 diary :=
    .operate 0 _ (.operate 0 _ (.operate 0 _ (.operate 0 _
      (.start reachable (by decide) rfl rfl rfl))))
  obtain ⟨hrebuilt, -, hsilent⟩ := recording_rebuilds_graph records
  have hstored : ⟨.int 1, .int 3⟩ ∈ (diary.graph 0).edgeList := by decide +kernel
  have hjoins : (diary.graph 0).Joins ⟨.int 1, .int 3⟩ (.int 3) (.int 1) := by decide +kernel
  exact ⟨records, by decide +kernel, hrebuilt, by decide +kernel,
    (hsilent _ hstored _ _ hjoins (.int 8)).1⟩

end Workspace

end OptimalMatching
