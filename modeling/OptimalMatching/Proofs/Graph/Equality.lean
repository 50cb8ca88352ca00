import Mathlib.Data.List.Perm.Subperm
import OptimalMatching.Graph.Basic
import OptimalMatching.Proofs.Graph.Neighbors
import OptimalMatching.Proofs.Graph.Pairs
/-!
# What the equality of graphs tells

Equal tables have the same keys, and the same weights under each of them (`sameTable_iff`); the
order of their entries is of no account. The table of a graph has its edges for keys, and in an
undirected graph that is more than a look-up tells: an edge is found by both of its names, but it is
one of them.

So two graphs in which every pair of vertices has the same weight are equal unless an edge of one is
stored in the other one the other way round (`Graph.equals_iff_sameLookups`), and then they are not
(`Graph.sameLookups_but_not_equal`).
-/

namespace OptimalMatching

theorem OrderedMap.length_keys {α β : Type} (m : OrderedMap α β) : m.keys.length = m.size :=
  List.length_map _

variable {α : Type} [DecidableEq α]

theorem OrderedMap.mem_keys_iff {β : Type} {m : OrderedMap α β} {a : α} :
    a ∈ m.keys ↔ ∃ b, m.get? a = some b :=
  contains_iff.symm.trans Option.isSome_iff_exists

theorem PairMap.find?_of_single {m : PairMap} {a : Edge × Weight} (single : m.entries = [a])
    (f : Edge) : m.find? f = if m.Same a.1 f then some a else none := by
  unfold find?
  rw [single, List.find?_singleton]
  simp only [decide_eq_true_iff]

/-- A weight that is a number is the same entry as those that are the same number. -/
theorem Weight.identical_of_number {w : Weight} (number : w.number?.isSome) (w' : Weight) :
    w.identical w' = w.sameNumber w' := by
  cases w with
  | undefined i => cases number
  | int n => rfl
  | float x => rfl

/-! ## Tables -/

/-- Two maps have the same entry for a key, or none. -/
def SameEntry (a b : OrderedMap α Weight) (key : α) : Prop :=
  Option.Rel (fun w w' => w.identical w' = true) (a.get? key) (b.get? key)

theorem SameEntry.mem_keys_iff {a b : OrderedMap α Weight} {key : α} (same : SameEntry a b key) :
    key ∈ a.keys ↔ key ∈ b.keys := by
  rw [OrderedMap.mem_keys_iff, OrderedMap.mem_keys_iff]
  unfold SameEntry at same
  generalize a.get? key = x, b.get? key = y at same
  cases same <;> simp

/-- **Tables are the same** when they have the same entry for every key, or none. -/
theorem sameTable_iff {a b : OrderedMap α Weight} :
    sameTable a b = true ↔ ∀ key, SameEntry a b key := by
  unfold sameTable
  rw [Bool.and_eq_true, decide_eq_true_iff, List.all_eq_true]
  constructor
  · rintro ⟨hsize, hall⟩ key
    have hfound : ∀ k ∈ a.keys, SameEntry a b k := by
      intro k hk
      obtain ⟨w, hw⟩ := OrderedMap.mem_keys_iff.1 hk
      have hk := hall (k, w) (OrderedMap.get?_eq_some_iff.1 hw)
      dsimp only at hk
      split at hk
      · next w' hw' =>
        rw [SameEntry, hw, hw']
        exact .some hk
      · cases hk
    -- The second table has no more keys than the first one, so none is left over in it.
    have hsubset : a.keys ⊆ b.keys := fun k hk => (hfound k hk).mem_keys_iff.1 hk
    have hlength : a.keys.length = b.keys.length := by
      rw [a.length_keys, b.length_keys, hsize]
    have hperm : a.keys.Perm b.keys :=
      (a.nodup_keys.subperm hsubset).perm_of_length_le (Nat.le_of_eq hlength.symm)
    by_cases hkey : key ∈ a.keys
    · exact hfound key hkey
    · rw [SameEntry, OrderedMap.get?_eq_none_iff.2 hkey,
        OrderedMap.get?_eq_none_iff.2 fun hb => hkey (hperm.mem_iff.2 hb)]
      exact .none
  · intro same
    have hperm : a.keys.Perm b.keys :=
      (List.perm_ext_iff_of_nodup a.nodup_keys b.nodup_keys).2 fun k => (same k).mem_keys_iff
    refine ⟨?_, fun ⟨key, w⟩ hw => ?_⟩
    · rw [← a.length_keys, ← b.length_keys, hperm.length_eq]
    · have hsame := same key
      rw [SameEntry, OrderedMap.get?_eq_some_iff.2 hw] at hsame
      dsimp only
      generalize b.get? key = y at hsame
      cases hsame with
      | some identical => exact identical

namespace Graph

variable {g h : Graph} {e : Edge} {u v : Vertex} {w : Weight}

theorem sameVertices_iff : g.sameVertices h = true ↔ ∀ v, v ∈ g.vertices ↔ v ∈ h.vertices := by
  unfold sameVertices
  rw [Bool.and_eq_true, List.all_eq_true, List.all_eq_true]
  simp only [← mem_vertices_iff]
  exact ⟨fun ⟨hg, hh⟩ v => ⟨hg v, hh v⟩, fun same => ⟨fun v => (same v).1, fun v => (same v).2⟩⟩

/-! ## Look-ups -/

/-- Two look-ups find the same number, or both find nothing. -/
inductive SameAnswer : Except Failure Weight → Except Failure Weight → Prop
  | weight {w w' : Weight} (same : w.sameNumber w' = true) : SameAnswer (.ok w) (.ok w')
  | absent (key : Key) : SameAnswer (.error (.absent key)) (.error (.absent key))

/-- Two graphs have the same vertices, and a look-up of two vertices has the same answer in both. -/
structure SameLookups (g h : Graph) : Prop where
  vertices : ∀ v, v ∈ g.vertices ↔ v ∈ h.vertices
  item : ∀ u v, SameAnswer (g.item (Edge.toKey ⟨u, v⟩)) (h.item (Edge.toKey ⟨u, v⟩))

theorem WellFormed.item_cases (wf : g.WellFormed) (u v : Vertex) :
    (∃ e w, g.Joins e u v ∧ g.edges.get? e = some w ∧ g.item (Edge.toKey ⟨u, v⟩) = .ok w) ∨
      (∀ e ∈ g.edgeList, ¬ g.Joins e u v) ∧
        g.item (Edge.toKey ⟨u, v⟩) = .error (.absent (Edge.toKey ⟨u, v⟩)) := by
  rw [wf.item_eq, PairMap.item, PairMap.lookup_toKey]
  cases hfound : g.pairs.find? ⟨u, v⟩ with
  | some a =>
    obtain ⟨ha, hj⟩ := (PairMap.find?_eq_some_iff wf.pairs_distinct).1 hfound
    exact .inl ⟨a.1, a.2, hj, OrderedMap.get?_eq_some_iff.2 ha, rfl⟩
  | none =>
    refine .inr ⟨fun e he hj => ?_, rfl⟩
    obtain ⟨a, ha, rfl⟩ := List.mem_map.1 he
    exact PairMap.find?_eq_none_iff.1 hfound a ha hj

theorem WellFormed.joins_of_item (wf : g.WellFormed) (hitem : g.item (Edge.toKey ⟨u, v⟩) = .ok w) :
    ∃ e, g.Joins e u v ∧ g.edges.get? e = some w := by
  rcases wf.item_cases u v with ⟨e, w', hj, hw, hfound⟩ | ⟨-, habsent⟩
  · rw [hfound] at hitem
    exact ⟨e, hj, Except.ok.inj hitem ▸ hw⟩
  · rw [habsent] at hitem
    cases hitem

/-! ## Equality -/

theorem equals_iff : g.equals h = true ↔ g.directed = h.directed ∧
    (∀ e, SameEntry g.edges h.edges e) ∧ ∀ v, v ∈ g.vertices ↔ v ∈ h.vertices := by
  unfold equals
  rw [Bool.and_eq_true, Bool.and_eq_true, decide_eq_true_iff, sameTable_iff, sameVertices_iff,
    and_assoc]

/-- What is stored alike is looked up alike. -/
theorem sameLookups_of_equals (wg : g.WellFormed) (wh : h.WellFormed)
    (numbers : ∀ a ∈ g.edges.entries, a.2.number?.isSome) (equals : g.equals h = true) :
    g.SameLookups h := by
  obtain ⟨hdirected, hentries, hvertices⟩ := equals_iff.1 equals
  refine ⟨hvertices, fun u v => ?_⟩
  rcases wg.item_cases u v with ⟨e, w, hj, hw, hitem⟩ | ⟨hnone, hitem⟩
  · have hentry := hentries e
    rw [SameEntry, hw] at hentry
    cases hw' : h.edges.get? e with
    | none =>
      rw [hw'] at hentry
      cases hentry
    | some w' =>
      have hitem' := wh.item_of_joins (OrderedMap.get?_eq_some_iff.1 hw')
        ((joins_congr hdirected).1 hj)
      have hnumber := numbers _ (OrderedMap.get?_eq_some_iff.1 hw)
      rw [hw'] at hentry
      cases hentry with
      | some identical =>
        rw [hitem, hitem']
        -- For numbers, being identical or equal is being equal.
        exact .weight (w.identical_of_number hnumber w' ▸ identical)
  · rcases wh.item_cases u v with ⟨e, w', hj, hw', -⟩ | ⟨-, hitem'⟩
    · have he : e ∈ g.edgeList :=
        (hentries e).mem_keys_iff.2 (OrderedMap.mem_keys_iff.2 ⟨w', hw'⟩)
      exact absurd ((joins_congr hdirected).2 hj) (hnone e he)
    · rw [hitem, hitem']
      exact .absent _

section Stored

variable (same : g.SameLookups h) (wg : g.WellFormed) (wh : h.WellFormed)

include same wg wh

/-- An edge of the first graph joins the same vertices in the second one, with the same weight. -/
theorem SameLookups.stored_right (hw : g.edges.get? e = some w) :
    ∃ e' w', h.Joins e' e.source e.target ∧ h.edges.get? e' = some w' ∧ w.sameNumber w' = true := by
  have hanswer := same.item e.source e.target
  rw [wg.item_of_joins (OrderedMap.get?_eq_some_iff.1 hw) (.inl rfl)] at hanswer
  generalize hitem : h.item (Edge.toKey ⟨e.source, e.target⟩) = answer at hanswer
  cases hanswer with
  | weight hsame =>
    obtain ⟨e', hj, hw'⟩ := wh.joins_of_item hitem
    exact ⟨e', _, hj, hw', hsame⟩

/-- An edge of the second graph joins the same vertices in the first one. -/
theorem SameLookups.stored_left (hw : h.edges.get? e = some w) :
    ∃ e', g.Joins e' e.source e.target ∧ e' ∈ g.edgeList := by
  have hanswer := same.item e.source e.target
  rw [wh.item_of_joins (OrderedMap.get?_eq_some_iff.1 hw) (.inl rfl)] at hanswer
  generalize hitem : g.item (Edge.toKey ⟨e.source, e.target⟩) = answer at hanswer
  cases hanswer with
  | weight hsame =>
    obtain ⟨e', hj, hw'⟩ := wg.joins_of_item hitem
    exact ⟨e', hj, OrderedMap.mem_keys_iff.2 ⟨_, hw'⟩⟩

/-- What is looked up alike is stored alike, unless an edge is stored the other way round. -/
theorem SameLookups.sameEntry (numbers : ∀ a ∈ g.edges.entries, a.2.number?.isSome)
    (oriented : ∀ e ∈ g.edgeList, e.reverse ∉ h.edgeList) (e : Edge) :
    SameEntry g.edges h.edges e := by
  unfold SameEntry
  cases hw : g.edges.get? e with
  | some w =>
    obtain ⟨e', w', hj, hw', hsame⟩ := same.stored_right wg wh hw
    rcases hj with rfl | ⟨-, rfl⟩
    · rw [show h.edges.get? e = some w' from hw']
      refine .some ?_
      rw [Weight.identical_of_number (numbers _ (OrderedMap.get?_eq_some_iff.1 hw))]
      exact hsame
    · -- The other graph stores the edge the other way round, which was ruled out.
      have he : e ∈ g.edgeList := OrderedMap.mem_keys_iff.2 ⟨w, hw⟩
      exact absurd (OrderedMap.mem_keys_iff.2 ⟨w', hw'⟩) (oriented e he)
  | none =>
    cases hw' : h.edges.get? e with
    | none => exact .none
    | some w' =>
      obtain ⟨e', hj, he'⟩ := same.stored_left wg wh hw'
      rcases hj with rfl | ⟨-, rfl⟩
      · exact absurd he' (OrderedMap.get?_eq_none_iff.1 hw)
      · exact absurd (OrderedMap.mem_keys_iff.2 ⟨w', hw'⟩) (oriented _ he')

end Stored

/-- **Equal graphs.** Whatever has been done to two undirected graphs whose weights are numbers, in
whichever order: they are equal exactly if they have the same vertices, a look-up of two vertices
has the same answer in both, and no edge of one is stored in the other one the other way round. -/
theorem equals_iff_sameLookups (hg : g.Reachable) (hh : h.Reachable)
    (undirected : g.directed = false) (undirected' : h.directed = false)
    (numbers : ∀ a ∈ g.edges.entries, a.2.number?.isSome) :
    g.equals h = true ↔ g.SameLookups h ∧ ∀ e ∈ g.edgeList, e.reverse ∉ h.edgeList := by
  have wg := hg.wellFormed
  have wh := hh.wellFormed
  constructor
  · intro hequals
    refine ⟨sameLookups_of_equals wg wh numbers hequals, fun e he he' => ?_⟩
    have hentries := (equals_iff.1 hequals).2.1
    exact wg.reverse_notMem undirected he ((hentries e.reverse).mem_keys_iff.2 he')
  · rintro ⟨same, oriented⟩
    exact equals_iff.2 ⟨undirected.trans undirected'.symm,
      same.sameEntry wg wh numbers oriented, same.vertices⟩

/-- Two edges, put in one after the other. -/
def chain : Graph :=
  (empty false).applyAll (Operation.changes (empty false)
    (.update [(.tuple [.int 1, .int 2], .int 4), (.tuple [.int 2, .int 3], .int 5)]))

/-- The same edges, put in in the other order. One of them has got its weight later, under its other
name, and a vertex has come and gone. -/
def chainAnew : Graph :=
  let run (g : Graph) (op : Operation) : Graph := g.applyAll (op.changes g)
  run (run (run (run (.empty false)
    (.update [(.tuple [.int 2, .int 3], .int 1), (.tuple [.int 1, .int 2], .int 4)]))
    (.set (.tuple [.int 3, .int 2]) (.int 5)))
    (.addEdge (.int 9) (.int 1) (.int 7)))
    (.removeVertex (.int 9))

theorem equals_iff_sameLookups_chain :
    chain.Reachable ∧ chainAnew.Reachable ∧ chain.directed = false ∧ chainAnew.directed = false ∧
      (∀ a ∈ chain.edges.entries, a.2.number?.isSome) ∧ chain.equals chainAnew = true ∧
      chain.SameLookups chainAnew ∧ ∀ e ∈ chain.edgeList, e.reverse ∉ chainAnew.edgeList := by
  have reachable : chain.Reachable := (Reachable.empty false).whole _
  have reachable' : chainAnew.Reachable :=
    ((((Reachable.empty false).whole _).whole _).whole _).whole _
  have numbers : ∀ a ∈ chain.edges.entries, a.2.number?.isSome :=
    List.all_eq_true.1 (by decide +kernel)
  have hequals : chain.equals chainAnew = true := by decide +kernel
  exact ⟨reachable, reachable', rfl, rfl, numbers, hequals,
    (equals_iff_sameLookups reachable reachable' rfl rfl numbers).1 hequals⟩

def forth : Graph :=
  (empty false).applyAll (Operation.changes (empty false)
    (.set (.tuple [.int 1, .int 2]) (.int 1)))

/-- The same edge, put in the other way round. -/
def back : Graph :=
  (empty false).applyAll (Operation.changes (empty false)
    (.set (.tuple [.int 2, .int 1]) (.int 1)))

/-- **The same look-ups do not make equal graphs**: an edge has both names, but the one by which it
was put in is compared. -/
theorem sameLookups_but_not_equal :
    forth.Reachable ∧ back.Reachable ∧ forth.directed = false ∧ back.directed = false ∧
      (∀ a ∈ forth.edges.entries, a.2.number?.isSome) ∧
      (∀ a ∈ back.edges.entries, a.2.number?.isSome) ∧
      forth.SameLookups back ∧ forth.equals back = false := by
  have reachable : forth.Reachable := (Reachable.empty false).whole _
  have reachable' : back.Reachable := (Reachable.empty false).whole _
  have hforth : forth.pairs.entries = [(⟨.int 1, .int 2⟩, .int 1)] := rfl
  have hback : back.pairs.entries = [(⟨.int 2, .int 1⟩, .int 1)] := rfl
  refine ⟨reachable, reachable', rfl, rfl, List.all_eq_true.1 (by decide +kernel),
    List.all_eq_true.1 (by decide +kernel), ⟨fun v => ?_, fun u v => ?_⟩, by decide +kernel⟩
  · have hvertices : forth.vertices = [.int 1, .int 2] := by decide +kernel
    have hvertices' : back.vertices = [.int 2, .int 1] := by decide +kernel
    rw [hvertices, hvertices', List.mem_pair, List.mem_pair, or_comm]
  · have hsame : back.pairs.Same ⟨.int 2, .int 1⟩ ⟨u, v⟩ ↔
        forth.pairs.Same ⟨.int 1, .int 2⟩ ⟨u, v⟩ :=
      ⟨.trans (.inr ⟨rfl, rfl⟩), .trans (.inr ⟨rfl, rfl⟩)⟩
    rw [reachable.wellFormed.item_eq, reachable'.wellFormed.item_eq, PairMap.item, PairMap.item,
      PairMap.lookup_toKey, PairMap.lookup_toKey, PairMap.find?_of_single hforth,
      PairMap.find?_of_single hback]
    simp only [hsame]
    split_ifs
    · exact .weight (by simp)
    · exact .absent _

end Graph

end OptimalMatching
