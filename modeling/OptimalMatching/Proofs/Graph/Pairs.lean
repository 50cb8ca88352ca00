import OptimalMatching.Proofs.Graph.Vertices
import OptimalMatching.Proofs.PairMap
/-!
# A graph is a map from pairs

Those who store weights in a graph see a map from pairs of vertices (`PairMap`): the stored edges
with their weights, in order of insertion (`Graph.pairs`). Three tables have to be kept for it, and
in all graphs in which they agree every look-up answers, and every operation changes what is stored,
as the map does (`WellFormed.isPairMap`).

**Look-ups.** The entry that the map finds is the edge that the table of neighbors leads to, with
its weight (`WellFormed.edge?_eq`, `WellFormed.stored_eq`).

**Operations.** An operation comes to the same as that of the map and leaves the pairs that it
leaves (`Edit.Agrees`). Each of them is made of one of three changes: a stored edge gets a new
weight, a new edge goes to the end, a stored edge goes.

**Clearing.** All edges are gone after the first one has been taken until there is none
(`WellFormed.popEach_eq_clear`).
-/

namespace OptimalMatching

/-- What a graph stores. -/
def Graph.pairs (g : Graph) : PairMap := ⟨g.directed, g.edges.entries⟩

/-- An edit of a graph and an operation on its pairs leave the same pairs and come to the same. -/
def Edit.Agrees {α : Type} (edit : Edit α) (g : Graph) (next : PairMap × Except Failure α) : Prop :=
  (edit.after g).pairs = next.1 ∧ edit.result = next.2

namespace Graph

variable {g : Graph} {e : Edge} {u v : Vertex} {w : Weight} {key : Key} {a : Edge × Weight}

/-! ## What a change does to the pairs -/

theorem pairs_addVertices (g : Graph) (vs : List Vertex) :
    (g.applyAll (vs.map .addVertex)).pairs = g.pairs := by
  induction vs generalizing g with
  | nil => rfl
  | cons v vs ih => exact ih (g.apply (.addVertex v))

theorem pairs_insertion (h : e ∉ g.edgeList) :
    (g.applyAll (g.insertion e w)).pairs =
      { g.pairs with entries := g.pairs.entries ++ [(e, w)] } := by
  unfold insertion
  rw [applyAll_append]
  generalize hvs : [e.source, e.target].filter _ = vs
  have hsame := pairs_addVertices g vs
  have hedges : (g.applyAll (vs.map .addVertex)).edges.entries = g.edges.entries :=
    congrArg PairMap.entries hsame
  have hnew : e ∉ (g.applyAll (vs.map .addVertex)).edges.entries.map Prod.fst := hedges ▸ h
  show PairMap.mk _ (Entries.put e w _) = _
  rw [Entries.put_of_notMem hnew, hedges]
  exact congrArg (fun m : PairMap => PairMap.mk m.directed _) hsame

namespace WellFormed

/-- **No pair is stored twice**, whichever way round. -/
theorem pairs_distinct (h : g.WellFormed) : g.pairs.Distinct := by
  have nodup : g.edges.entries.Pairwise fun a b => a.1 ≠ b.1 := List.pairwise_map.1 g.edges.nodup
  refine nodup.imp_of_mem fun {a b} ha hb hne hsame => ?_
  have ha' : a.1 ∈ g.edgeList := List.mem_map_of_mem ha
  have hb' : b.1 ∈ g.edgeList := List.mem_map_of_mem hb
  rcases hsame with heq | ⟨undirected, hreverse⟩
  · exact hne heq
  · exact h.reverse_notMem undirected hb' (hreverse ▸ ha')

/-! ## Look-ups -/

theorem edge?_eq (h : g.WellFormed) (u v : Vertex) :
    g.edge? u v = (g.pairs.find? ⟨u, v⟩).map Prod.fst := by
  ext e
  rw [h.edge?_iff, Option.map_eq_some_iff]
  constructor
  · rintro ⟨he, hj⟩
    obtain ⟨a, ha, rfl⟩ := List.mem_map.1 he
    exact ⟨a, (PairMap.find?_eq_some_iff h.pairs_distinct).2 ⟨ha, hj⟩, rfl⟩
  · rintro ⟨a, hfound, rfl⟩
    obtain ⟨ha, hj⟩ := (PairMap.find?_eq_some_iff h.pairs_distinct).1 hfound
    exact ⟨List.mem_map_of_mem ha, hj⟩

theorem stored_eq (h : g.WellFormed) (key : Key) :
    g.stored key = (g.pairs.lookup key).map Prod.fst := by
  unfold stored PairMap.lookup
  cases Edge.ofKey? key with
  | none => rfl
  | some e =>
    dsimp only
    rw [h.edge?_eq]
    cases g.pairs.find? e <;> rfl

theorem mem_of_lookup (h : g.WellFormed) (hkey : g.pairs.lookup key = .ok a) :
    a ∈ g.edges.entries := by
  unfold PairMap.lookup at hkey
  split at hkey
  · cases hkey
  · split at hkey
    · cases hkey
    · next hfound =>
      obtain rfl := Except.ok.inj hkey
      exact ((PairMap.find?_eq_some_iff h.pairs_distinct).1 hfound).1

theorem item_eq (h : g.WellFormed) (key : Key) : g.item key = g.pairs.item key := by
  unfold item PairMap.item
  rw [h.stored_eq]
  cases hkey : g.pairs.lookup key with
  | error f => rfl
  | ok a => exact weight_of_mem (h.mem_of_lookup hkey)

theorem weightOr_eq (h : g.WellFormed) (key : Key) (default : Option Weight) :
    g.weightOr key default = g.pairs.itemOr key default := by
  unfold weightOr PairMap.itemOr
  rw [h.item_eq, PairMap.item]
  cases g.pairs.lookup key with
  | ok a => rfl
  | error f => cases f <;> rfl

theorem contains_eq (h : g.WellFormed) (key : Key) : g.contains key = g.pairs.contains key := by
  unfold Graph.contains PairMap.contains
  rw [h.stored_eq]
  cases g.pairs.lookup key <;> rfl

/-! ## Operations -/

theorem pairs_reweigh (h : g.WellFormed) (hfound : g.pairs.find? e = some a) (w : Weight) :
    (g.apply (.reweigh a.1 w)).pairs = g.pairs.assign e w := by
  have hdirected : (g.pairs.assign e w).directed = g.directed := PairMap.directed_assign
  refine PairMap.ext hdirected.symm ?_
  rw [PairMap.entries_assign_of_mem hfound]
  refine List.map_congr_left fun b hb => ?_
  have hsame : g.pairs.Same b.1 e ↔ b.1 = a.1 := by
    rw [PairMap.same_iff_of_find? h.pairs_distinct hfound hb]
    refine ⟨fun heq => heq ▸ rfl, fun heq => ?_⟩
    exact (PairMap.same_iff_eq h.pairs_distinct hb
      (List.mem_of_find?_eq_some hfound)).1 (.inl heq)
  simp only [hsame]
  split_ifs <;> rfl

theorem pairs_removeEdge (h : g.WellFormed) (ha : a ∈ g.edges.entries) :
    (g.apply (.removeEdge a.1)).pairs = g.pairs.remove a.1 := by
  show PairMap.mk _ (g.edges.entries.filter _) = PairMap.mk _ (g.edges.entries.filter _)
  congr 1
  refine List.filter_congr fun b hb => ?_
  have hsame : g.pairs.Same b.1 a.1 ↔ b.1 = a.1 := by
    refine ⟨fun hsame => ?_, fun heq => .inl heq⟩
    exact congrArg Prod.fst ((PairMap.same_iff_eq h.pairs_distinct hb ha).1 hsame)
  simp only [hsame, ne_eq]

theorem put_agrees (h : g.WellFormed) (key : Key) (w : Weight) :
    (g.put key w).Agrees g (g.pairs.put key w) := by
  unfold put PairMap.put
  cases Edge.ofKey? key with
  | none => exact ⟨rfl, rfl⟩
  | some e =>
    dsimp only
    rw [h.edge?_eq]
    cases hfound : g.pairs.find? e with
    | some a => exact ⟨h.pairs_reweigh hfound w, rfl⟩
    | none =>
      dsimp only [Option.map_none]
      split_ifs with hloop
      · exact ⟨rfl, rfl⟩
      · have hnew : e ∉ g.edgeList := by
          intro he
          obtain ⟨a, ha, rfl⟩ := List.mem_map.1 he
          exact PairMap.find?_eq_none_iff.1 hfound a ha (.inl rfl)
        refine ⟨?_, rfl⟩
        show _ = g.pairs.assign e w
        rw [PairMap.assign, if_neg (by simp [hfound])]
        exact pairs_insertion hnew

theorem set_agrees (h : g.WellFormed) (key : Key) (w : Weight) :
    (g.set key w).Agrees g (g.pairs.set key w) := by
  obtain ⟨hpairs, hresult⟩ := h.put_agrees key w
  exact ⟨hpairs, congrArg (Except.map fun _ => ()) hresult⟩

theorem delete_agrees (h : g.WellFormed) (key : Key) :
    (g.delete key).Agrees g (g.pairs.delete key) := by
  unfold delete PairMap.delete
  rw [h.stored_eq]
  cases hkey : g.pairs.lookup key with
  | error f => exact ⟨rfl, rfl⟩
  | ok a => exact ⟨h.pairs_removeEdge (h.mem_of_lookup hkey), rfl⟩

theorem pop_agrees (h : g.WellFormed) (key : Key) (default : Option Weight) :
    (g.pop key default).Agrees g (g.pairs.pop key default) := by
  obtain ⟨hpairs, hresult⟩ := h.delete_agrees key
  unfold PairMap.delete at hpairs hresult
  unfold pop PairMap.pop
  rw [h.item_eq, PairMap.item]
  cases hkey : g.pairs.lookup key with
  | ok a =>
    rw [hkey] at hpairs hresult
    exact ⟨hpairs, congrArg (Except.map fun _ => a.2) hresult⟩
  | error f => cases f <;> cases default <;> exact ⟨rfl, rfl⟩

theorem popFirst_agrees (h : g.WellFormed) : g.popFirst.Agrees g g.pairs.popFirst := by
  unfold PairMap.popFirst
  cases hentries : g.edges.entries with
  | nil =>
    have hpairs : g.pairs.entries = [] := hentries
    rw [popFirst_of_nil (congrArg (List.map Prod.fst) hentries), hpairs]
    exact ⟨rfl, rfl⟩
  | cons a rest =>
    have hpairs : g.pairs.entries = a :: rest := hentries
    rw [h.popFirst_eq hentries, hpairs]
    exact ⟨congrArg (PairMap.mk _) (entries_removeFirst hentries), rfl⟩

theorem setDefault_agrees (h : g.WellFormed) (key : Key) (default : Weight) :
    (g.setDefault key default).Agrees g (g.pairs.setDefault key default) := by
  obtain ⟨hpairs, hresult⟩ := h.set_agrees key default
  unfold setDefault PairMap.setDefault
  rw [h.item_eq, PairMap.item]
  cases g.pairs.lookup key with
  | ok a => exact ⟨rfl, rfl⟩
  | error f =>
    cases f with
    | absent => exact ⟨hpairs, congrArg (Except.map fun _ => default) hresult⟩
    | _ => exact ⟨rfl, rfl⟩

/-- Weights are stored one after the other, each in the graph that the earlier ones have left. -/
theorem update_agrees (h : g.WellFormed) (entries : List (Key × Weight)) :
    (g.update entries).Agrees g (g.pairs.update entries) := by
  induction entries generalizing g with
  | nil => exact ⟨rfl, rfl⟩
  | cons entry rest ih =>
    obtain ⟨key, w⟩ := entry
    obtain ⟨hpairs, hresult⟩ := h.set_agrees key w
    have hafter : ((g.set key w).after g).WellFormed := h.applyAll h.allFit_put
    have hnext := ih hafter
    rw [hpairs] at hnext
    unfold update PairMap.update Edit.andThen
    rcases hset : g.pairs.set key w with ⟨m', f | ⟨⟩⟩
    · rw [hset] at hpairs hresult
      rw [hresult]
      exact ⟨hpairs, rfl⟩
    · rw [hset] at hnext hresult
      rw [hresult]
      refine ⟨?_, hnext.2⟩
      show (g.applyAll (_ ++ _)).pairs = _
      rw [applyAll_append]
      exact hnext.1

theorem edgeList_clear (g : Graph) : (g.clear.after g).edgeList = [] :=
  (edgeList_removeEdges g _).trans (List.filter_eq_nil_iff.2 fun e he => by simp [he])

theorem clear_agrees (g : Graph) : g.clear.Agrees g g.pairs.clear := by
  refine ⟨?_, rfl⟩
  have hentries : (g.clear.after g).edges.entries = [] := List.map_eq_nil_iff.1 (edgeList_clear g)
  show PairMap.mk _ _ = PairMap.mk _ _
  rw [hentries]
  exact congrArg (PairMap.mk · []) (directed_applyAll g _)

end WellFormed

/-! ## Clearing -/

/-- Takes the first edge so many times, or until there is none. -/
def popTimes (g : Graph) : Nat → Edit Unit
  | 0 => .done ()
  | count + 1 =>
    match g.popFirst.result with
    -- what is missing ends the loop, and nothing else does
    | .error f => if f.kind = .missing then .done () else .fail f
    | .ok _ =>
      let rest := (g.popFirst.after g).popTimes count
      ⟨g.popFirst.changes ++ rest.changes, rest.result⟩

/-- Takes the first edge until there is none, which is found out when as many times have passed as
there are edges. -/
def popEach (g : Graph) : Edit Unit := g.popTimes (g.edges.size + 1)

/-- **Clearing a graph** is taking its first edge until there is none. -/
theorem WellFormed.popEach_eq_clear (h : g.WellFormed) : g.popEach = g.clear := by
  unfold popEach OrderedMap.size
  generalize hes : g.edges.entries = es
  induction es generalizing g with
  | nil =>
    have hedges : g.edgeList = [] := congrArg (List.map Prod.fst) hes
    rw [List.length_nil, popTimes, popFirst_of_nil hedges, clear, hedges]
    rfl
  | cons a es ih =>
    have hrest := entries_removeFirst hes
    have hedges : g.edgeList = a.1 :: (g.apply (.removeEdge a.1)).edgeList := by
      unfold edgeList OrderedMap.keys
      rw [hes, hrest, List.map_cons]
    have stored : a.1 ∈ g.edgeList := by
      rw [hedges]
      exact List.mem_cons_self
    have hafter : (Edit.after ⟨[.removeEdge a.1], Except.ok a⟩ g).popTimes (es.length + 1) =
        (g.apply (.removeEdge a.1)).clear := ih (h.removeEdge stored) hrest
    rw [List.length_cons, popTimes, h.popFirst_eq hes]
    dsimp only
    rw [hafter, clear, clear, hedges]
    rfl

/-! ## A map from pairs -/

/-- A graph answers and changes as a map from pairs of vertices. -/
structure IsPairMap (g : Graph) : Prop where
  distinct : g.pairs.Distinct
  edge? : ∀ u v, g.edge? u v = (g.pairs.find? ⟨u, v⟩).map Prod.fst
  item : ∀ key, g.item key = g.pairs.item key
  weightOr : ∀ key default, g.weightOr key default = g.pairs.itemOr key default
  contains : ∀ key, g.contains key = g.pairs.contains key
  set : ∀ key w, (g.set key w).Agrees g (g.pairs.set key w)
  addEdge : ∀ u v w, (g.addEdge u v w).Agrees g (g.pairs.put (Edge.toKey ⟨u, v⟩) w)
  delete : ∀ key, (g.delete key).Agrees g (g.pairs.delete key)
  pop : ∀ key default, (g.pop key default).Agrees g (g.pairs.pop key default)
  popFirst : g.popFirst.Agrees g g.pairs.popFirst
  setDefault : ∀ key default, (g.setDefault key default).Agrees g (g.pairs.setDefault key default)
  update : ∀ entries, (g.update entries).Agrees g (g.pairs.update entries)
  clear : g.clear.Agrees g g.pairs.clear

/-- The answers about two vertices do not depend on the way round in which they are named. -/
structure EitherWay (g : Graph) (u v : Vertex) : Prop where
  edge? : g.edge? u v = g.edge? v u
  contains : g.contains (Edge.toKey ⟨u, v⟩) = g.contains (Edge.toKey ⟨v, u⟩)
  weightOr : ∀ default,
    g.weightOr (Edge.toKey ⟨u, v⟩) default = g.weightOr (Edge.toKey ⟨v, u⟩) default
  /-- A failure names the key that was looked up. -/
  item : (∃ w, g.item (Edge.toKey ⟨u, v⟩) = .ok w ∧ g.item (Edge.toKey ⟨v, u⟩) = .ok w) ∨
    (g.item (Edge.toKey ⟨u, v⟩) = .error (.absent (Edge.toKey ⟨u, v⟩)) ∧
      g.item (Edge.toKey ⟨v, u⟩) = .error (.absent (Edge.toKey ⟨v, u⟩)))

/-- A pair has got a weight, and everything else is as it was. -/
structure Assigned (g : Graph) (u v : Vertex) (w : Weight) (after : Graph) : Prop where
  item : after.item (Edge.toKey ⟨u, v⟩) = .ok w
  /-- A pair that is there keeps its place and its direction. -/
  stored : ∀ e ∈ g.edgeList, g.Joins e u v →
    after.edges.entries = g.edges.entries.map fun a => if a.1 = e then (e, w) else a
  new : (∀ e ∈ g.edgeList, ¬ g.Joins e u v) →
    after.edges.entries = g.edges.entries ++ [(⟨u, v⟩, w)]

/-- A pair is gone, and everything else is as it was. -/
structure Removed {α : Type} (g : Graph) (e : Edge) (a : Except Failure α) (edit : Edit α) :
    Prop where
  entries : (edit.after g).edges.entries = g.edges.entries.filter fun b => b.1 ≠ e
  result : edit.result = a

namespace WellFormed

/-- **The look-ups and the operations** are those of a map from pairs. -/
theorem isPairMap (h : g.WellFormed) : g.IsPairMap where
  distinct := h.pairs_distinct
  edge? := h.edge?_eq
  item := h.item_eq
  weightOr := h.weightOr_eq
  contains := h.contains_eq
  set := h.set_agrees
  addEdge _ _ := h.put_agrees _
  delete := h.delete_agrees
  pop := h.pop_agrees
  popFirst := h.popFirst_agrees
  setDefault := h.setDefault_agrees
  update := h.update_agrees
  clear := clear_agrees g

theorem eitherWay (h : g.WellFormed) (undirected : g.directed = false) (u v : Vertex) :
    g.EitherWay u v := by
  have hsame : g.pairs.Same ⟨u, v⟩ ⟨v, u⟩ := .inr ⟨undirected, rfl⟩
  have hfind := PairMap.find?_congr hsame
  constructor
  case edge? => rw [h.edge?_eq, h.edge?_eq, hfind]
  case contains =>
    rw [h.contains_eq, h.contains_eq, PairMap.contains, PairMap.contains, PairMap.lookup_toKey,
      PairMap.lookup_toKey, hfind]
    cases g.pairs.find? ⟨v, u⟩ <;> rfl
  case weightOr =>
    intro default
    rw [h.weightOr_eq, h.weightOr_eq, PairMap.itemOr, PairMap.itemOr, PairMap.lookup_toKey,
      PairMap.lookup_toKey, hfind]
    cases g.pairs.find? ⟨v, u⟩ <;> rfl
  case item =>
    rw [h.item_eq, h.item_eq, PairMap.item, PairMap.item, PairMap.lookup_toKey,
      PairMap.lookup_toKey, hfind]
    cases g.pairs.find? ⟨v, u⟩ with
    | none => exact .inr ⟨rfl, rfl⟩
    | some a => exact .inl ⟨a.2, rfl, rfl⟩

theorem assigned (h : g.WellFormed) (hok : (g.set (Edge.toKey ⟨u, v⟩) w).result = .ok ()) :
    g.Assigned u v w ((g.set (Edge.toKey ⟨u, v⟩) w).after g) := by
  obtain ⟨hpairs, hresult⟩ := h.put_agrees (Edge.toKey ⟨u, v⟩) w
  have hafter : ((g.set (Edge.toKey ⟨u, v⟩) w).after g).WellFormed := h.applyAll h.allFit_put
  -- The pairs behave like a dictionary, and there the assignment has gone through.
  have hassigned : ((g.set (Edge.toKey ⟨u, v⟩) w).after g).pairs = g.pairs.assign ⟨u, v⟩ w := by
    obtain ⟨f, hf⟩ : ∃ f, (g.put (Edge.toKey ⟨u, v⟩) w).result = .ok f := by
      unfold set Edit.map at hok
      cases hput : (g.put (Edge.toKey ⟨u, v⟩) w).result with
      | ok f => exact ⟨f, rfl⟩
      | error f =>
        rw [hput] at hok
        cases hok
    exact hpairs.trans (PairMap.put_of_ok (hresult.symm.trans hf))
  constructor
  case item =>
    obtain ⟨e, he⟩ := PairMap.find?_assign (w := w) (.inl rfl : g.pairs.Same ⟨u, v⟩ ⟨u, v⟩)
    rw [hafter.item_eq, PairMap.item, PairMap.lookup_toKey, hassigned, he]
    rfl
  case stored =>
    intro e he hj
    have hput := h.put_of_joins he hj w
    show (g.applyAll (g.put (Edge.toKey ⟨u, v⟩) w).changes).edges.entries = _
    rw [hput]
    refine List.map_congr_left fun a _ => ?_
    split_ifs with heq
    · rw [heq]
    · rfl
  case new =>
    intro hnone
    have hnew : g.pairs.find? ⟨u, v⟩ = none :=
      PairMap.find?_eq_none_iff.2 fun a ha => hnone a.1 (List.mem_map_of_mem ha)
    exact (congrArg PairMap.entries hassigned).trans (PairMap.entries_assign_of_new hnew)

theorem removed_delete (h : g.WellFormed) (he : e ∈ g.edgeList) (hj : g.Joins e u v) :
    g.Removed e (.ok ()) (g.delete (Edge.toKey ⟨u, v⟩)) := by
  rw [h.delete_of_joins he hj]
  exact ⟨rfl, rfl⟩

theorem removed_pop (h : g.WellFormed) (he : e ∈ g.edgeList) (hj : g.Joins e u v)
    (default : Option Weight) :
    g.Removed e (g.item (Edge.toKey ⟨u, v⟩)) (g.pop (Edge.toKey ⟨u, v⟩) default) := by
  obtain ⟨a, ha, rfl⟩ := List.mem_map.1 he
  unfold Graph.pop
  rw [h.item_of_joins ha hj, h.delete_of_joins he hj]
  exact ⟨rfl, rfl⟩

end WellFormed

/-- **A graph is a map from pairs.** Whatever has been done to a graph, its look-ups and its
operations are those of a map from pairs of vertices.

The way round in which two vertices are named does not matter unless the graph is directed. A pair
that has got a weight has it, where the pair was and as it was stored, or else at the end; a pair
that is removed goes alone, whichever way round it is named; a default takes no pair's place. To
clear a graph is to take its first edge until there is none, and then there are no edges. Vertices
stay where they are unless one is removed by name. -/
theorem graph_is_pairMap (h : g.Reachable) :
    g.IsPairMap ∧
    (g.directed = false → ∀ u v, g.EitherWay u v) ∧
    (∀ u v w, (g.set (Edge.toKey ⟨u, v⟩) w).result = .ok () →
      g.Assigned u v w ((g.set (Edge.toKey ⟨u, v⟩) w).after g)) ∧
    (∀ e ∈ g.edgeList, ∀ u v, g.Joins e u v →
      g.Removed e (.ok ()) (g.delete (Edge.toKey ⟨u, v⟩)) ∧
      ∀ default, g.Removed e (g.item (Edge.toKey ⟨u, v⟩)) (g.pop (Edge.toKey ⟨u, v⟩) default)) ∧
    (∀ key w default, g.item key = .ok w → g.setDefault key default = .done w) ∧
    (g.popEach = g.clear ∧ (g.clear.after g).edgeList = []) ∧
    ∀ (op : Operation) (count : Nat), (∀ v, op ≠ .removeVertex v) →
      g.vertices <+: (g.applyAll ((op.changes g).take count)).vertices := by
  have wf := h.wellFormed
  refine ⟨wf.isPairMap, wf.eitherWay, fun u v w hok => wf.assigned hok, ?_, ?_,
    ⟨wf.popEach_eq_clear, WellFormed.edgeList_clear g⟩,
    fun op count keeps => wf.vertices_prefix keeps count⟩
  · intro e he u v hj
    exact ⟨wf.removed_delete he hj, wf.removed_pop he hj⟩
  · intro key w default hitem
    unfold setDefault
    rw [hitem]

/-- An edge of an undirected graph has gone and has come back the other way round. -/
def turned : Graph :=
  let g := ((empty false).update [(.tuple [.int 1, .int 2], .int 4),
    (.tuple [.int 2, .int 3], .int 5)]).after (empty false)
  let g := (g.delete (.tuple [.int 1, .int 2])).after g
  (g.set (.tuple [.int 2, .int 1]) (.int 6)).after g

theorem graph_is_pairMap_turned :
    turned.Reachable ∧ turned.IsPairMap ∧ turned.EitherWay (.int 1) (.int 2) ∧
      turned.Assigned (.int 1) (.int 2) (.int 7)
        ((turned.set (.tuple [.int 1, .int 2]) (.int 7)).after turned) ∧
      ((turned.set (.tuple [.int 1, .int 2]) (.int 7)).after turned).edges.entries.map Prod.fst =
        [⟨.int 2, .int 3⟩, ⟨.int 2, .int 1⟩] ∧
      turned.Removed ⟨.int 2, .int 1⟩ (.ok ()) (turned.delete (.tuple [.int 1, .int 2])) := by
  have reachable : turned.Reachable :=
    (((Reachable.empty false).whole (.update _)).whole (.delete _)).whole (.set _ _)
  obtain ⟨hmap, heither, hset, hremove, -⟩ := graph_is_pairMap reachable
  have hstored : ⟨.int 2, .int 1⟩ ∈ turned.edgeList := by decide +kernel
  have hjoins : turned.Joins ⟨.int 2, .int 1⟩ (.int 1) (.int 2) := by decide +kernel
  exact ⟨reachable, hmap, heither rfl _ _, hset _ _ _ rfl, by decide +kernel,
    (hremove _ hstored _ _ hjoins).1⟩

end Graph

end OptimalMatching
