import OptimalMatching.Proofs.Neighborhoods
import OptimalMatching.Proofs.Workspace.Listeners
/-!
# A registered cache follows its graph

A cache is added for a graph, and registered with it before the graph changes. From then on the
graph is changed and the cache is asked in any order, while other graphs, caches and listeners do
what they like, except that no other listener of the graph fails (`Workspace.Follows`).

**Told once.** The cache stands once among the listeners of its graph and nowhere else, so every
change of the graph reaches it once, and nothing else does. What the other listeners do leaves it
and all graphs alone (`tellAll_cache`).

**In tune.** Whenever the cache is told of a change it is faithful to the graph as it was before,
and is made faithful to the graph as it is now. So it is faithful between operations
(`Follows.attuned`), and then it answers as the graph does.
-/

namespace OptimalMatching

/-- What a cache can be asked. -/
inductive Question where
  /-- The different neighbors of a vertex. -/
  | neighborSet (v : Vertex)
  /-- The neighbors of a vertex, once for each edge that leads to them. -/
  | neighborList (v : Vertex)

/-- The answer of a cache that reads a graph, and the cache after it. -/
def Question.answer {B : Bags} (n : Neighborhoods B) (g : Graph) :
    Question → Neighborhoods B × Except Failure (List Vertex)
  | .neighborSet v => n.neighborSet g v
  | .neighborList v => n.neighborList g v

namespace Workspace

variable {O : Outside} {w w' : Workspace O} {id cache src : Nat} {event : Event} {l : Listener}
  {ls : List Listener} {c : Change} {cs : List Change} {n n' : Neighborhoods O.bags} {told : Bool}

def ask (w : Workspace O) (cache : Nat) (q : Question) :
    Workspace O × Except Failure (List Vertex) :=
  w.withCache cache fun n g => q.answer n g

/-- The workspaces in which a cache has followed a graph since it was added, and whether it is
registered. The graph does not change before, and no other listener of it fails. -/
inductive Follows (id cache : Nat) : Bool → Workspace O → Prop where
  | addCache {w : Workspace O} :
      w.Reachable → id < w.graphs.length → w.caches.length = cache →
        Follows id cache false (w.addCache id).1
  | registerCache {w : Workspace O} :
      Follows id cache false w → Follows id cache true (w.register id (.cache cache))
  | operate {w : Workspace O} (op : Operation) :
      Follows id cache true w →
        (∀ call ∈ w.calls id op, call.listener ≠ .cache cache → call.outcome = .ok ()) →
          Follows id cache true (w.operate id op).1
  | ask {told : Bool} {w : Workspace O} (q : Question) :
      Follows id cache told w → Follows id cache told (w.ask cache q).1
  | operateElsewhere {told : Bool} {w : Workspace O} {other : Nat} (op : Operation) :
      Follows id cache told w → other ≠ id → Follows id cache told (w.operate other op).1
  | consultElsewhere {told : Bool} {w : Workspace O} {other : Nat} {α : Type}
      (f : Neighborhoods O.bags → Graph → Neighborhoods O.bags × Except Failure α) :
      Follows id cache told w → other ≠ cache → Follows id cache told (w.withCache other f).1
  | register {told : Bool} {w : Workspace O} {l : Listener} (other : Nat) :
      Follows id cache told w → l ≠ .cache cache → Follows id cache told (w.register other l)
  | unregister {told : Bool} {w : Workspace O} {l : Listener} (other : Nat) :
      Follows id cache told w → l ≠ .cache cache → Follows id cache told (w.unregister other l).1

/-! ## Caches and calls -/

theorem withCache_eq {α : Type} (h : w.caches[cache]? = some ⟨src, n⟩)
    (f : Neighborhoods O.bags → Graph → Neighborhoods O.bags × Except Failure α) :
    w.withCache cache f =
      ({ w with caches := w.caches.set cache ⟨src, (f n (w.graph src)).1⟩ },
        (f n (w.graph src)).2) := by
  unfold withCache
  rw [h]
  rfl

/-- A cache that is consulted becomes what it makes of itself. -/
theorem getElem?_withCache {α : Type} (h : w.caches[cache]? = some ⟨src, n⟩)
    (f : Neighborhoods O.bags → Graph → Neighborhoods O.bags × Except Failure α) :
    (w.withCache cache f).1.caches[cache]? = some ⟨src, (f n (w.graph src)).1⟩ := by
  rw [withCache_eq h]
  exact List.getElem?_set_self (List.getElem?_eq_some_iff.1 h).1

theorem ask_eq (h : w.caches[cache]? = some ⟨src, n⟩) (q : Question) :
    (w.ask cache q).2 = (q.answer n (w.graph src)).2 := by
  unfold ask
  rw [withCache_eq h]

theorem getElem?_withCache_ne {α : Type} {other : Nat} (ne : other ≠ cache)
    (f : Neighborhoods O.bags → Graph → Neighborhoods O.bags × Except Failure α) :
    (w.withCache other f).1.caches[cache]? = w.caches[cache]? :=
  List.getElem?_set_ne ne

theorem getElem?_tell_ne (ne : l ≠ .cache cache) (w : Workspace O) (event : Event) :
    (w.tell event l).1.caches[cache]? = w.caches[cache]? := by
  cases l with
  | cache other => exact getElem?_withCache_ne (fun heq => ne (congrArg Listener.cache heq)) _
  | recorder r => rfl
  | guest g =>
    obtain ⟨guests, -, htold⟩ := w.tellGuest_fst g event
    rw [tell, htold]

theorem getElem?_tellAll_of_notMem (h : .cache cache ∉ ls) (w : Workspace O) (event : Event) :
    (w.tellAll event ls).1.caches[cache]? = w.caches[cache]? :=
  (tellAll_keeps (P := fun w' => w'.caches[cache]? = w.caches[cache]?)
    (fun _ hl w' hw' => (getElem?_tell_ne (fun heq => h (heq ▸ hl)) w' event).trans hw') rfl).1

theorem tell_cache (hread : w.caches[cache]? = some ⟨src, n⟩)
    (hreceive : n.receive (w.graph src) event = (n', .ok ())) :
    w.tell event (.cache cache) = ({ w with caches := w.caches.set cache ⟨src, n'⟩ }, .ok ()) := by
  show w.withCache cache (fun n g => n.receive g event) = _
  rw [withCache_eq hread, hreceive]

/-- **A cache that stands once among the listeners** does not fail when it is told of an event that
it can take, and what it makes of itself is what is there in the end. -/
theorem tellAll_cache (once : ls.count (.cache cache) = 1)
    (hread : w.caches[cache]? = some ⟨src, n⟩)
    (hreceive : n.receive (w.graph src) event = (n', .ok ())) :
    (∀ call ∈ w.tellCalls event ls, call.listener = .cache cache → call.outcome = .ok ()) ∧
      ((w.tellAll event ls).2 = .ok () →
        (w.tellAll event ls).1.caches[cache]? = some ⟨src, n'⟩) := by
  induction ls generalizing w with
  | nil => cases once
  | cons l rest ih =>
    by_cases hl : l = .cache cache
    · subst hl
      have hrest : .cache cache ∉ rest := by
        rw [List.count_cons_self, Nat.add_eq_right] at once
        exact List.count_eq_zero.1 once
      have htell := tell_cache hread hreceive
      constructor
      · intro call hcall hlistener
        simp only [tellCalls, htell, List.mem_cons] at hcall
        rcases hcall with rfl | hcall
        · exact congrArg Prod.snd htell
        · exact absurd (hlistener ▸ listener_mem_of_tellCalls hcall) hrest
      · intro _
        simp only [tellAll, htell]
        rw [getElem?_tellAll_of_notMem hrest]
        exact List.getElem?_set_self (List.getElem?_eq_some_iff.1 hread).1
    · rw [List.count_cons_of_ne hl] at once
      rcases htell : w.tell event l with ⟨w₁, f | ⟨⟩⟩
      · simp [tellAll, tellCalls, htell, hl]
      · -- Another listener is told: it changes neither the cache nor the graphs.
        have hsame := getElem?_tell_ne hl w event
        have hgraphs := graphs_tell w event l
        rw [htell] at hsame hgraphs
        have hgraph : w₁.graph src = w.graph src := by
          unfold graph
          rw [hgraphs]
        obtain ⟨hcalls, hend⟩ := ih once (hsame.trans hread) (hgraph ▸ hreceive)
        constructor
        · intro call hcall hlistener
          simp only [tellCalls, htell, List.mem_cons] at hcall
          rcases hcall with rfl | hcall
          · exact absurd hlistener hl
          · exact hcalls call hcall hlistener
        · simpa only [tellAll, htell] using hend

/-! ## In tune -/

/-- A cache reads a graph of which it says the truth, and is told of its changes, and of nothing
else, if it is registered. -/
structure Attuned (id cache : Nat) (told : Bool) (w : Workspace O) : Prop where
  id_lt : id < w.graphs.length
  wellFormed : (w.graph id).WellFormed
  faithful : ∃ n, w.caches[cache]? = some ⟨id, n⟩ ∧ n.Faithful (w.graph id)
  count_eq : ∀ other, (w.listeners other).count (.cache cache) = if id = other ∧ told then 1 else 0

namespace Attuned

/-- What leaves the graph, the cache and its registrations leaves the cache in tune. -/
theorem of_same (h : Attuned id cache told w) (hlength : w'.graphs.length = w.graphs.length)
    (hgraph : w'.graph id = w.graph id) (hcache : w'.caches[cache]? = w.caches[cache]?)
    (hcount : ∀ other, (w'.listeners other).count (.cache cache) =
      (w.listeners other).count (.cache cache)) : Attuned id cache told w' where
  id_lt := hlength ▸ h.id_lt
  wellFormed := hgraph ▸ h.wellFormed
  faithful := by
    rw [hgraph, hcache]
    exact h.faithful
  count_eq other := (hcount other).trans (h.count_eq other)

theorem addCache (h : w.Reachable) (hid : id < w.graphs.length) (hcache : w.caches.length = cache) :
    Attuned id cache false (w.addCache id).1 where
  id_lt := hid
  wellFormed := (h.graphs id).wellFormed
  faithful := by
    refine ⟨.empty, ?_, Neighborhoods.Faithful.empty _⟩
    subst hcache
    simp [Workspace.addCache]
  count_eq other := by
    have hnot : Listener.cache cache ∉ w.listeners other := fun hmem =>
      Nat.lt_irrefl _ (hcache ▸ h.knows hmem)
    exact (List.count_eq_zero.2 hnot).trans (if_neg fun h => Bool.noConfusion h.2).symm

theorem registerCache (h : Attuned id cache false w) :
    Attuned id cache true (w.register id (.cache cache)) where
  id_lt := by
    rw [Workspace.register, List.length_modify]
    exact h.id_lt
  wellFormed := by
    rw [graph_register]
    exact h.wellFormed
  faithful := by
    rw [graph_register]
    exact h.faithful
  count_eq other := by
    have hcount := h.count_eq other
    rw [listeners_register h.id_lt]
    split_ifs with hother <;> simp_all

theorem register (h : Attuned id cache told w) (ne : l ≠ .cache cache) (other : Nat) :
    Attuned id cache told (w.register other l) := by
  refine h.of_same (List.length_modify ..) (graph_register ..) rfl fun x => ?_
  rcases Nat.lt_or_ge other w.graphs.length with hother | hother
  · rw [listeners_register hother]
    split_ifs
    · simp [ne]
    · rfl
  · rw [listeners_register_of_le hother]

theorem unregister (h : Attuned id cache told w) (ne : l ≠ .cache cache) (other : Nat) :
    Attuned id cache told (w.unregister other l).1 := by
  refine h.of_same ?_ (graph_unregister ..) ?_ fun x => ?_
  · unfold Workspace.unregister
    split_ifs
    · exact List.length_modify ..
    · rfl
  · unfold Workspace.unregister
    split_ifs <;> rfl
  · rw [listeners_unregister]
    split_ifs
    · exact List.count_erase_of_ne ne.symm
    · rfl

theorem consultElsewhere {α : Type} (h : Attuned id cache told w) {other : Nat}
    (ne : other ≠ cache)
    (f : Neighborhoods O.bags → Graph → Neighborhoods O.bags × Except Failure α) :
    Attuned id cache told (w.withCache other f).1 :=
  h.of_same rfl rfl (getElem?_withCache_ne ne f) fun _ => rfl

/-- Nothing that happens to another graph reaches the cache. -/
theorem operateElsewhere (h : Attuned id cache told w) {other : Nat} (ne : other ≠ id)
    (op : Operation) : Attuned id cache told (w.operate other op).1 := by
  have hnot : Listener.cache cache ∉ w.listeners other := by
    rw [← List.count_eq_zero, h.count_eq]
    exact if_neg fun hother => ne hother.1.symm
  have hkept : (w.commitAll other (op.changes (w.graph other))).1.caches[cache]? =
        w.caches[cache]? ∧
      (w.commitAll other (op.changes (w.graph other))).1.listeners other = w.listeners other :=
    commitAll_keeps
      (P := fun w' => w'.caches[cache]? = w.caches[cache]? ∧ w'.listeners other = w.listeners other)
      (fun w' c hw' => ⟨hw'.1, (listeners_change ..).trans hw'.2⟩)
      (fun w' hw' l hl event =>
        have ne : l ≠ .cache cache := fun heq => hnot (hw'.2 ▸ heq ▸ hl)
        ⟨(getElem?_tell_ne ne w' event).trans hw'.1, (listeners_tell ..).trans hw'.2⟩)
      _ ⟨rfl, rfl⟩
  rw [← operate_fst] at hkept
  refine h.of_same (length_graphs_operate w other op) (graph_operate_ne w op ne) hkept.1 fun x => ?_
  rw [listeners_operate]

theorem ask (lawful : O.bags.Lawful) (h : Attuned id cache told w) (q : Question) :
    Attuned id cache told (w.ask cache q).1 := by
  obtain ⟨n, hread, hn⟩ := h.faithful
  have hanswer : (q.answer n (w.graph id)).1.Faithful (w.graph id) := by
    cases q <;> exact hn.lookup lawful h.wellFormed _
  exact ⟨h.id_lt, h.wellFormed, ⟨_, getElem?_withCache hread _, hanswer⟩, h.count_eq⟩

/-! ### Changes of the graph -/

section Changes

variable (lawful : O.bags.Lawful)

include lawful

/-- What a change makes of the cache. -/
theorem commit_cache (h : Attuned id cache true w) (fits : c.Fits (w.graph id)) :
    (∀ call ∈ w.commitCalls id c, call.listener = .cache cache → call.outcome = .ok ()) ∧
      ((w.commit id c).2 = .ok () → ∃ n', (w.commit id c).1.caches[cache]? = some ⟨id, n'⟩ ∧
        n'.Faithful ((w.graph id).apply c)) := by
  obtain ⟨n, hread, hn⟩ := h.faithful
  unfold Workspace.commit commitCalls
  cases hevent : c.event? with
  | none =>
    refine ⟨fun _ hcall => (List.not_mem_nil hcall).elim, fun _ => ⟨n, hread, ?_⟩⟩
    cases c with
    | reweigh e w => exact hn.reweigh
    | _ => cases hevent
  | some event =>
    have hgraph : (w.change id c).graph id = (w.graph id).apply c :=
      graph_of_modify graphs_change h.id_lt
    have once : ((w.change id c).listeners id).count (.cache cache) = 1 := by
      rw [listeners_change, h.count_eq]
      exact if_pos ⟨rfl, rfl⟩
    obtain ⟨n', hreceive, hn'⟩ := hn.receive lawful h.wellFormed fits hevent
    obtain ⟨hcalls, hend⟩ := tellAll_cache (w := w.change id c) once hread (hgraph ▸ hreceive)
    exact ⟨hcalls, fun hok => ⟨n', hend hok, hn'⟩⟩

/-- **One change.** If no other listener fails, the cache is in tune again. -/
theorem commit (h : Attuned id cache true w) (fits : c.Fits (w.graph id))
    (hok : (w.commit id c).2 = .ok ()) : Attuned id cache true (w.commit id c).1 := by
  have hgraphs := (graphs_commit w id c).1
  have hgraph : (w.commit id c).1.graph id = (w.graph id).apply c := graph_of_modify hgraphs h.id_lt
  constructor
  case id_lt =>
    rw [hgraphs, List.length_modify]
    exact h.id_lt
  case wellFormed => exact hgraph ▸ h.wellFormed.apply fits
  case faithful => exact hgraph ▸ (h.commit_cache lawful fits).2 hok
  case count_eq =>
    intro other
    rw [listeners_of_modify hgraphs]
    exact h.count_eq other

/-- **Many changes**, one after the other. -/
theorem commitAll (h : Attuned id cache true w) (fits : (w.graph id).AllFit cs) :
    (∀ call ∈ w.commitAllCalls id cs, call.listener = .cache cache → call.outcome = .ok ()) ∧
      ((w.commitAll id cs).2 = .ok () → Attuned id cache true (w.commitAll id cs).1) := by
  induction cs generalizing w with
  | nil => exact ⟨fun _ hcall => (List.not_mem_nil hcall).elim, fun _ => h⟩
  | cons c rest ih =>
    have hcalls := (h.commit_cache lawful fits.1).1
    have hnext := h.commit lawful fits.1
    have hgraph := graph_of_modify (graphs_commit w id c).1 h.id_lt
    rcases hc : w.commit id c with ⟨w₁, f | ⟨⟩⟩ <;> rw [hc] at hnext hgraph
    · simpa [Workspace.commitAll, commitAllCalls, hc] using hcalls
    · have hfits : (w₁.graph id).AllFit rest := hgraph ▸ fits.2
      obtain ⟨hrest, hend⟩ := ih (hnext rfl) hfits
      refine ⟨fun call hcall => ?_, by simpa only [Workspace.commitAll, hc] using hend⟩
      simp only [commitAllCalls, hc, List.mem_append] at hcall
      exact hcall.elim (hcalls call) (hrest call)

/-- Wherever an operation is carried out, the cache does not fail. -/
theorem outcome_eq_ok (h : Attuned id cache true w) {target : Nat} {op : Operation} {call : Call O}
    (hcall : call ∈ w.calls target op) (hlistener : call.listener = .cache cache) :
    call.outcome = .ok () := by
  by_cases htarget : id = target
  · subst htarget
    exact (h.commitAll lawful (h.wellFormed.allFit op)).1 call hcall hlistener
  · have hnone := h.count_eq target
    rw [if_neg fun heq => htarget heq.1, List.count_eq_zero, ← hlistener] at hnone
    exact absurd (listener_mem_of_commitAllCalls hcall) hnone

/-- **An operation** that no other listener stops leaves the cache in tune. -/
theorem operate (h : Attuned id cache true w) {op : Operation}
    (others : ∀ call ∈ w.calls id op, call.listener ≠ .cache cache → call.outcome = .ok ()) :
    Attuned id cache true (w.operate id op).1 := by
  rw [operate_fst]
  refine (h.commitAll lawful (h.wellFormed.allFit op)).2
    (commitAll_eq_ok_iff.2 fun call hcall => ?_)
  by_cases hlistener : call.listener = .cache cache
  · exact h.outcome_eq_ok lawful hcall hlistener
  · exact others call hcall hlistener

end Changes

end Attuned

/-- **A cache that follows a graph** is in tune. -/
theorem Follows.attuned (lawful : O.bags.Lawful) (h : Follows id cache told w) :
    Attuned id cache told w := by
  induction h with
  | addCache reachable hid hcache => exact .addCache reachable hid hcache
  | registerCache _ ih => exact ih.registerCache
  | operate op _ others ih => exact ih.operate lawful others
  | ask q _ ih => exact ih.ask lawful q
  | operateElsewhere op _ ne ih => exact ih.operateElsewhere ne op
  | consultElsewhere f _ ne ih => exact ih.consultElsewhere ne f
  | register other _ ne ih => exact ih.register ne other
  | unregister other _ ne ih => exact ih.unregister ne other

/-! ## Answers -/

namespace Attuned

/-- The answers about a vertex of the graph are its neighbors, once or as often as in the graph. -/
theorem ask_of_mem (lawful : O.bags.Lawful) (h : Attuned id cache told w) {v : Vertex}
    (hv : v ∈ (w.graph id).vertices) :
    ∃ elements listed, (w.ask cache (.neighborSet v)).2 = .ok elements ∧
      (w.ask cache (.neighborList v)).2 = .ok listed ∧ elements.Nodup ∧
        (∀ u, u ∈ elements ↔ u ∈ (w.graph id).around v) ∧
          listed.Perm ((w.graph id).around v) ∧
            ((w.graph id).directed = false → listed = (w.graph id).around v) := by
  obtain ⟨n, hread, hn⟩ := h.faithful
  obtain ⟨n', bag, hlookup, -, hbag⟩ := Neighborhoods.lookup_spec lawful h.wellFormed hn hv
  have hfound : (n.lookup (w.graph id) v).2 = .ok bag := by rw [hlookup]
  exact ⟨O.bags.elements bag, O.bags.toList bag,
    (ask_eq hread _).trans (congrArg (Except.map O.bags.elements) hfound),
    (ask_eq hread _).trans (congrArg (Except.map O.bags.toList) hfound),
    lawful.nodup_elements bag, fun u => hbag.holds.mem_elements_iff lawful,
    hbag.holds.toList_perm lawful, hbag.inOrder⟩

theorem ask_of_notMem (h : Attuned id cache told w) {v : Vertex}
    (hv : v ∉ (w.graph id).vertices) :
    (w.ask cache (.neighborSet v)).2 = .error (.absent v) ∧
      (w.ask cache (.neighborList v)).2 = .error (.absent v) := by
  obtain ⟨n, hread, hn⟩ := h.faithful
  have hfailed : (n.lookup (w.graph id) v).2 = .error (.absent v) := by
    rw [Neighborhoods.lookup_eq_error h.wellFormed hn hv]
  exact ⟨(ask_eq hread _).trans (congrArg (Except.map O.bags.elements) hfailed),
    (ask_eq hread _).trans (congrArg (Except.map O.bags.toList) hfailed)⟩

end Attuned

/-- **Main result.** A cache that was registered with its graph before the graph changed never fails
when it is told of a change, as long as no other listener of the graph fails. Asked for a vertex of
the graph it gives the neighbors that the graph lists: as a set, and as a list with the same
elements, which in an undirected graph is the same list. Asked for another vertex it fails. -/
theorem cache_agrees_with_graph (lawful : O.bags.Lawful) (h : Follows id cache true w) :
    (∀ target op, ∀ call ∈ w.calls target op, call.listener = .cache cache →
      call.outcome = .ok ()) ∧
    (∀ v ∈ (w.graph id).vertices, ∃ neighbors elements listed,
      (w.graph id).neighborList v = .ok neighbors ∧
      (w.ask cache (.neighborSet v)).2 = .ok elements ∧ elements.Nodup ∧
      (∀ u, u ∈ elements ↔ u ∈ neighbors) ∧
      (w.ask cache (.neighborList v)).2 = .ok listed ∧ listed.Perm neighbors ∧
      ((w.graph id).directed = false → listed = neighbors)) ∧
    ∀ v ∉ (w.graph id).vertices, (w.ask cache (.neighborSet v)).2 = .error (.absent v) ∧
      (w.ask cache (.neighborList v)).2 = .error (.absent v) := by
  have attuned := h.attuned lawful
  refine ⟨fun target op call hcall => attuned.outcome_eq_ok lawful hcall, fun v hv => ?_,
    fun v hv => attuned.ask_of_notMem hv⟩
  obtain ⟨elements, listed, hset, hlist, hnodup, hmem, hperm, hsame⟩ := attuned.ask_of_mem lawful hv
  exact ⟨_, elements, listed, attuned.wellFormed.neighborList_eq hv, hset, hnodup, hmem, hlist,
    hperm, hsame⟩

/-- Edges that lead both ways between two vertices, and one more. -/
def bothWays : List (Key × Weight) :=
  [(.tuple [.int 1, .int 2], .int 0), (.tuple [.int 1, .int 3], .int 0),
    (.tuple [.int 2, .int 1], .int 0)]

/-- Bags that are tallies, and guests that count the events they are told of. -/
def counting : Outside := ⟨Tally.bags, Nat, fun count _ _ => (count + 1, .ok ())⟩

/-- A directed graph with a recorder and a guest that listen to it. -/
def street : Workspace counting :=
  let g := ((Graph.empty true).update bothWays).after (.empty true)
  (((Workspace.empty.addGraph g).1.addRecorder.1.addGuest (0 : Nat)).1.register 0
    (.recorder 0)).register 0 (.guest 0)

/-- A cache is asked for neighbors before it is registered. Then an edge goes. -/
def oneLane : Workspace counting :=
  ((((street.addCache 0).1.ask 0 (.neighborSet (.int 1))).1.register 0 (.cache 0)).operate 0
    (.delete (.tuple [.int 1, .int 2]))).1

theorem cache_agrees_with_graph_oneLane :
    counting.bags.Lawful ∧ Follows 0 0 true oneLane ∧
      (∀ call ∈ oneLane.calls 0 .clear, call.listener = .cache 0 → call.outcome = .ok ()) ∧
      (oneLane.calls 0 .clear).map Call.listener =
        [.recorder 0, .guest 0, .cache 0, .recorder 0, .guest 0, .cache 0] ∧
      (∃ listed, (oneLane.graph 0).neighborList (.int 1) = .ok [.int 3, .int 2] ∧
        (oneLane.ask 0 (.neighborList (.int 1))).2 = .ok listed ∧
        listed.Perm [.int 3, .int 2] ∧ listed = [.int 2, .int 3]) ∧
      (oneLane.ask 0 (.neighborSet (.int 4))).2 = .error (.absent (.int 4)) := by
  have built : Graph.ofEntries true bothWays =
      .ok (((Graph.empty true).update bothWays).after (.empty true)) := rfl
  have reachable : street.Reachable :=
    .register 0 (.register 0 (.addGuest _ (.addRecorder (.addGraph .empty built)))
      (show 0 < 1 by decide)) (show 0 < 1 by decide)
  have follows : Follows 0 0 true oneLane := by
    refine .operate _ (.registerCache (.ask _ (.addCache reachable (by decide) rfl))) ?_
    intro call hcall hne
    have hmem : call.listener ∈ [Listener.recorder 0, .guest 0, .cache 0] :=
      listener_mem_of_commitAllCalls hcall
    have hother : call.listener = .recorder 0 ∨ call.listener = .guest 0 := by
      simpa [hne] using hmem
    unfold Call.outcome
    rcases hother with hl | hl <;> rw [hl]
    · rfl
    · show (call.workspace.tellGuest 0 call.event).2 = .ok ()
      unfold tellGuest
      cases call.workspace.guests[0]? <;> rfl
  obtain ⟨hcalls, hagree, hfail⟩ := cache_agrees_with_graph Tally.lawful follows
  obtain ⟨neighbors, elements, listed, hneighbors, -, -, -, hlisted, hperm, -⟩ :=
    hagree (.int 1) (by decide +kernel)
  have h₁ : (oneLane.graph 0).neighborList (.int 1) = .ok [.int 3, .int 2] := by rfl
  have h₂ : (oneLane.ask 0 (.neighborList (.int 1))).2 = .ok [.int 2, .int 3] := by rfl
  obtain rfl := Except.ok.inj (h₁.symm.trans hneighbors)
  obtain rfl := Except.ok.inj (h₂.symm.trans hlisted)
  exact ⟨Tally.lawful, follows, hcalls 0 .clear, by decide +kernel, ⟨_, h₁, h₂, hperm, rfl⟩,
    (hfail (.int 4) (by decide +kernel)).1⟩

end Workspace

end OptimalMatching
