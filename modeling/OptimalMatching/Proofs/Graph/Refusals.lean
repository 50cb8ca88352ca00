import OptimalMatching.Proofs.Graph.Neighbors
import OptimalMatching.Proofs.Graph.Pairs
/-!
# Operations that are refused

An operation on a graph is refused for a reason that can be read off its arguments and the graph
(`Operation.Refused`). A weight can be stored under every pair of two different vertices, and under
nothing else, whatever is in the graph: no loop is ever stored, so a loop is always a new edge. Only
a pair that is there can be removed, looked up or taken.

An operation fails exactly for these reasons (`Graph.WellFormed.result_edit_iff`). All but one look
before they change anything, and are refused without a change
(`Graph.WellFormed.edit_refusedFor`). The one is the update, which stores the weights one after
the other and stops at the first that it cannot store.
-/

namespace OptimalMatching

/-! ## Reasons -/

/-- A weight can be stored: the key is a pair of different vertices. -/
def Storable (key : Key) : Prop := ∃ u v, u ≠ v ∧ key = Edge.toKey ⟨u, v⟩

/-- Why a weight cannot be stored: the key is no pair, or its parts are the same. -/
def Unstorable (key : Key) (f : Failure) : Prop :=
  (∀ e : Edge, key ≠ e.toKey) ∧ f = .malformedKey ∨
    ∃ v, key = Edge.toKey ⟨v, v⟩ ∧ f = .loop ⟨v, v⟩

/-- Why a key names no edge of a graph: it is no pair, or no edge joins its parts. -/
def Graph.Unnamed (g : Graph) (key : Key) (f : Failure) : Prop :=
  (∀ e : Edge, key ≠ e.toKey) ∧ f = .malformedKey ∨
    ∃ u v, key = Edge.toKey ⟨u, v⟩ ∧ (∀ e ∈ g.edgeList, ¬ g.Joins e u v) ∧ f = .absent key

/-- Why an operation on a graph is refused. -/
def Operation.Refused (g : Graph) (f : Failure) : Operation → Prop
  | .set key _ => Unstorable key f
  | .delete key => g.Unnamed key f
  | .pop key none => g.Unnamed key f
  | .pop key (some _) => (∀ e : Edge, key ≠ e.toKey) ∧ f = .malformedKey
  | .popFirst => g.edgeList = [] ∧ f = .noEdges
  | .setDefault key _ => Unstorable key f
  | .update entries => ∃ before a after, entries = before ++ a :: after ∧
      (∀ b ∈ before, Storable b.1) ∧ Unstorable a.1 f
  | .clear => False
  | .addVertex _ => False
  | .removeVertex v => v ∉ g.vertices ∧ f = .absent v
  | .addEdge source target _ => source = target ∧ f = .loop ⟨source, target⟩

variable {key : Key} {e : Edge} {f : Failure}

theorem unstorable_iff_of_malformed (h : Edge.ofKey? key = none) :
    Unstorable key f ↔ f = .malformedKey := by
  have hkey := Edge.ofKey?_eq_none_iff.1 h
  constructor
  · rintro (⟨-, hf⟩ | ⟨v, heq, -⟩)
    · exact hf
    · exact absurd heq (hkey _)
  · exact fun hf => .inl ⟨hkey, hf⟩

theorem unstorable_toKey_iff : Unstorable e.toKey f ↔ e.source = e.target ∧ f = .loop e := by
  constructor
  · rintro (⟨hkey, -⟩ | ⟨v, hkey, rfl⟩)
    · exact absurd rfl (hkey e)
    · obtain rfl : e = ⟨v, v⟩ := Option.some.inj (congrArg Edge.ofKey? hkey)
      exact ⟨rfl, rfl⟩
  · rintro ⟨hloop, rfl⟩
    obtain ⟨u, v⟩ := e
    obtain rfl : u = v := hloop
    exact .inr ⟨u, rfl, rfl⟩

theorem Storable.not_unstorable (h : Storable key) : ¬ Unstorable key f := by
  obtain ⟨u, v, ne, rfl⟩ := h
  exact fun hf => ne (unstorable_toKey_iff.1 hf).1

theorem storable_or_unstorable (key : Key) : Storable key ∨ ∃ f, Unstorable key f := by
  cases hkey : Edge.ofKey? key with
  | none => exact .inr ⟨_, (unstorable_iff_of_malformed hkey).2 rfl⟩
  | some e =>
    obtain rfl := Edge.ofKey?_eq_some_iff.1 hkey
    by_cases hloop : e.source = e.target
    · exact .inr ⟨_, unstorable_toKey_iff.2 ⟨hloop, rfl⟩⟩
    · exact .inl ⟨e.source, e.target, hloop, rfl⟩

/-- An edit fails for the given reasons only, and then changes nothing. -/
structure Edit.RefusedFor {α : Type} (edit : Edit α) (reason : Failure → Prop) : Prop where
  result_iff : ∀ {f}, edit.result = .error f ↔ reason f
  changes_eq : ∀ {f}, edit.result = .error f → edit.changes = []

namespace Edit.RefusedFor

variable {α β : Type} {edit : Edit α} {reason reason' : Failure → Prop}

theorem congr (h : edit.RefusedFor reason) (same : ∀ f, reason f ↔ reason' f) :
    edit.RefusedFor reason' :=
  ⟨h.result_iff.trans (same _), h.changes_eq⟩

theorem map (h : edit.RefusedFor reason) (k : α → β) : (edit.map k).RefusedFor reason := by
  have hresult : ∀ {f}, (edit.map k).result = .error f ↔ edit.result = .error f := by
    intro f
    unfold Edit.map
    cases edit.result <;> simp [Except.map]
  exact ⟨hresult.trans h.result_iff, fun hf => h.changes_eq (hresult.1 hf)⟩

theorem fail (reason : Failure) : (Edit.fail reason : Edit α).RefusedFor (· = reason) :=
  ⟨⟨fun hf => (Except.error.inj hf).symm, fun hf => hf ▸ rfl⟩, fun _ => rfl⟩

/-- What is refused for no reason comes to something. -/
theorem exists_ok (h : edit.RefusedFor reason) (never : ∀ f, ¬ reason f) :
    ∃ a, edit.result = .ok a := by
  cases hresult : edit.result with
  | ok a => exact ⟨a, rfl⟩
  | error f => exact absurd (h.result_iff.1 hresult) (never f)

theorem ok (changes : List Change) (a : α) (never : ∀ f, ¬ reason f) :
    (⟨changes, .ok a⟩ : Edit α).RefusedFor reason :=
  ⟨iff_of_false (by simp) (never _), fun hf => by cases hf⟩

end Edit.RefusedFor

namespace Graph

variable {g : Graph} {w : Weight}

theorem unnamed_iff_of_malformed (h : Edge.ofKey? key = none) :
    g.Unnamed key f ↔ f = .malformedKey := by
  have hkey := Edge.ofKey?_eq_none_iff.1 h
  constructor
  · rintro (⟨-, hf⟩ | ⟨u, v, heq, -⟩)
    · exact hf
    · exact absurd heq (hkey _)
  · exact fun hf => .inl ⟨hkey, hf⟩

namespace WellFormed

theorem unnamed_toKey_iff (h : g.WellFormed) :
    g.Unnamed e.toKey f ↔ g.edge? e.source e.target = none ∧ f = .absent e.toKey := by
  have hnone : g.edge? e.source e.target = none ↔
      ∀ e' ∈ g.edgeList, ¬ g.Joins e' e.source e.target := by
    simp [Option.eq_none_iff_forall_ne_some, h.edge?_iff]
  rw [hnone]
  constructor
  · rintro (⟨hkey, -⟩ | ⟨u, v, hkey, hjoins, rfl⟩)
    · exact absurd rfl (hkey e)
    · obtain rfl : e = ⟨u, v⟩ := Option.some.inj (congrArg Edge.ofKey? hkey)
      exact ⟨hjoins, rfl⟩
  · rintro ⟨hjoins, rfl⟩
    exact .inr ⟨e.source, e.target, rfl, hjoins, rfl⟩

/-! ## Looking before anything is changed -/

/-- Storing a weight is refused for the key alone, whatever is stored already. -/
theorem put_refusedFor (h : g.WellFormed) (key : Key) (w : Weight) :
    (g.put key w).RefusedFor (Unstorable key) := by
  unfold put
  cases hkey : Edge.ofKey? key with
  | none => exact (Edit.RefusedFor.fail _).congr fun _ => (unstorable_iff_of_malformed hkey).symm
  | some e =>
    obtain rfl := Edge.ofKey?_eq_some_iff.1 hkey
    dsimp only
    cases hfound : g.edge? e.source e.target with
    | some stored =>
      refine .ok _ _ fun f hf => ?_
      rw [(unstorable_toKey_iff.1 hf).1, h.edge?_self] at hfound
      cases hfound
    | none =>
      dsimp only
      split_ifs with hloop
      · exact (Edit.RefusedFor.fail _).congr fun _ => by simp [unstorable_toKey_iff, hloop]
      · exact .ok _ _ fun f hf => hloop (unstorable_toKey_iff.1 hf).1

theorem set_refusedFor (h : g.WellFormed) (key : Key) (w : Weight) :
    (g.set key w).RefusedFor (Unstorable key) :=
  (h.put_refusedFor key w).map _

/-- A look-up of an edge fails for the given reasons only. -/
theorem stored_eq_error_iff (h : g.WellFormed) : g.stored key = .error f ↔ g.Unnamed key f := by
  unfold stored
  cases hkey : Edge.ofKey? key with
  | none =>
    rw [unnamed_iff_of_malformed hkey]
    exact ⟨fun hf => (Except.error.inj hf).symm, fun hf => hf ▸ rfl⟩
  | some e =>
    obtain rfl := Edge.ofKey?_eq_some_iff.1 hkey
    rw [h.unnamed_toKey_iff]
    dsimp only
    cases g.edge? e.source e.target with
    | none => exact ⟨fun hf => ⟨rfl, (Except.error.inj hf).symm⟩, fun hf => hf.2 ▸ rfl⟩
    | some stored => simp

theorem delete_refusedFor (h : g.WellFormed) (key : Key) :
    (g.delete key).RefusedFor (g.Unnamed key) := by
  unfold delete
  cases hkey : g.stored key with
  | error reason =>
    refine (Edit.RefusedFor.fail reason).congr fun f => ?_
    rw [← h.stored_eq_error_iff, hkey, Except.error.injEq, eq_comm]
  | ok e =>
    refine .ok _ _ fun f hf => ?_
    rw [h.stored_eq_error_iff.2 hf] at hkey
    cases hkey

theorem item_eq_error_iff (h : g.WellFormed) : g.item key = .error f ↔ g.Unnamed key f := by
  rw [← h.stored_eq_error_iff, h.item_eq, h.stored_eq, PairMap.item]
  cases g.pairs.lookup key <;> simp [Except.map]

/-- Without a default, popping is refused where deleting is. -/
theorem pop_refusedFor (h : g.WellFormed) (key : Key) :
    (g.pop key none).RefusedFor (g.Unnamed key) := by
  unfold pop
  cases hitem : g.item key with
  | ok w => exact (h.delete_refusedFor key).map _
  | error reason =>
    have hfail : (Edit.fail reason : Edit Weight).RefusedFor (g.Unnamed key) := by
      refine (Edit.RefusedFor.fail reason).congr fun f => ?_
      rw [← h.item_eq_error_iff, hitem, Except.error.injEq, eq_comm]
    cases reason <;> exact hfail

/-- A default stands for an edge that is not there, but not for a key that is no pair. -/
theorem pop_default_refusedFor (h : g.WellFormed) (key : Key) (w : Weight) :
    (g.pop key (some w)).RefusedFor
      fun f => (∀ e : Edge, key ≠ e.toKey) ∧ f = Failure.malformedKey := by
  unfold pop
  cases hitem : g.item key with
  | ok w' =>
    have named : ∀ f, ¬ g.Unnamed key f := fun f hf => by
      rw [h.item_eq_error_iff.2 hf] at hitem
      cases hitem
    exact ((h.delete_refusedFor key).map _).congr fun f =>
      iff_of_false (named f) fun hf => named _ (.inl hf)
  | error reason =>
    rcases h.item_eq_error_iff.1 hitem with ⟨hkey, rfl⟩ | ⟨u, v, rfl, -, rfl⟩
    · exact (Edit.RefusedFor.fail _).congr fun f => (and_iff_right hkey).symm
    · exact .ok _ _ fun f hf => hf.1 ⟨u, v⟩ rfl

theorem popFirst_refusedFor (h : g.WellFormed) :
    g.popFirst.RefusedFor fun f => g.edgeList = [] ∧ f = Failure.noEdges := by
  cases hentries : g.edges.entries with
  | nil =>
    have hedges : g.edgeList = [] := congrArg (List.map Prod.fst) hentries
    rw [popFirst_of_nil hedges]
    exact (Edit.RefusedFor.fail _).congr fun f => (and_iff_right hedges).symm
  | cons a rest =>
    rw [h.popFirst_eq hentries]
    refine .ok _ _ fun f hf => ?_
    have hedges : g.edgeList = a.1 :: rest.map Prod.fst := congrArg (List.map Prod.fst) hentries
    rw [hedges] at hf
    cases hf.1

/-- A default is stored, and refused where storing is; what is stored is never refused. -/
theorem setDefault_refusedFor (h : g.WellFormed) (key : Key) (w : Weight) :
    (g.setDefault key w).RefusedFor (Unstorable key) := by
  unfold setDefault
  cases hitem : g.item key with
  | ok w' =>
    refine .ok _ _ fun f hf => ?_
    have unnamed : ∃ f, g.Unnamed key f := by
      rcases hf with ⟨hkey, -⟩ | ⟨v, rfl, -⟩
      · exact ⟨_, .inl ⟨hkey, rfl⟩⟩
      · exact ⟨_, h.unnamed_toKey_iff.2 ⟨h.edge?_self, rfl⟩⟩
    obtain ⟨f', hf'⟩ := unnamed
    rw [h.item_eq_error_iff.2 hf'] at hitem
    cases hitem
  | error reason =>
    rcases h.item_eq_error_iff.1 hitem with ⟨hkey, rfl⟩ | ⟨u, v, rfl, -, rfl⟩
    · exact (Edit.RefusedFor.fail _).congr fun f =>
        (unstorable_iff_of_malformed (Edge.ofKey?_eq_none_iff.2 hkey)).symm
    · exact (h.set_refusedFor _ w).map _

theorem removeVertex_refusedFor (h : g.WellFormed) (v : Vertex) :
    (g.removeVertex v).RefusedFor fun f => v ∉ g.vertices ∧ f = Failure.absent v := by
  by_cases hv : v ∈ g.vertices
  · rw [h.removeVertex_eq hv]
    exact .ok _ _ fun f hf => hf.1 hv
  · rw [removeVertex_of_notMem hv]
    exact (Edit.RefusedFor.fail _).congr fun f => (and_iff_right hv).symm

/-! ## Storing until something is refused -/

/-- **An update fails** for the first entry that cannot be stored. -/
theorem result_update_iff (h : g.WellFormed) {entries : List (Key × Weight)} :
    (g.update entries).result = .error f ↔ ∃ before a after, entries = before ++ a :: after ∧
      (∀ b ∈ before, Storable b.1) ∧ Unstorable a.1 f := by
  -- Over the entries: the graph in which an entry is stored is the one the entries before it left.
  induction entries generalizing g with
  | nil => simp [update, Edit.done]
  | cons a rest ih =>
    have hset := h.set_refusedFor a.1 a.2
    rcases storable_or_unstorable a.1 with ha | ⟨reason, ha⟩
    · obtain ⟨⟨⟩, hok⟩ := hset.exists_ok fun _ => ha.not_unstorable
      rw [update_cons hok]
      refine (ih (h.applyAll h.allFit_put)).trans ⟨?_, ?_⟩
      · rintro ⟨before, a', after, rfl, hbefore, ha'⟩
        exact ⟨a :: before, a', after, rfl, List.forall_mem_cons.2 ⟨ha, hbefore⟩, ha'⟩
      · rintro ⟨before, a', after, heq, hbefore, ha'⟩
        cases before with
        | nil =>
          obtain ⟨rfl, -⟩ := List.cons.inj heq
          exact absurd ha' ha.not_unstorable
        | cons b before =>
          obtain ⟨-, rfl⟩ := List.cons.inj heq
          exact ⟨before, a', after, rfl, (List.forall_mem_cons.1 hbefore).2, ha'⟩
    · -- The first entry is refused, so the rest is never looked at.
      have hfails := hset.result_iff.2 ha
      rw [update_cons_of_error hfails]
      show Except.error reason = Except.error f ↔ _
      rw [← hfails, hset.result_iff]
      refine ⟨fun hf => ⟨[], a, rest, rfl, by simp, hf⟩, ?_⟩
      rintro ⟨before, a', after, heq, hbefore, ha'⟩
      cases before with
      | nil =>
        obtain ⟨rfl, -⟩ := List.cons.inj heq
        exact ha'
      | cons b before =>
        obtain ⟨rfl, -⟩ := List.cons.inj heq
        exact absurd ha (hbefore a List.mem_cons_self).not_unstorable

/-- **An operation** other than an update is refused for its reasons, and without a change. -/
theorem edit_refusedFor (h : g.WellFormed) {op : Operation}
    (other : ∀ entries, op ≠ .update entries) : (op.edit g).RefusedFor (op.Refused g) := by
  cases op with
  | set key w => exact h.set_refusedFor key w
  | delete key => exact h.delete_refusedFor key
  | pop key default =>
    cases default with
    | none => exact (h.pop_refusedFor key).map _
    | some w => exact (h.pop_default_refusedFor key w).map _
  | popFirst => exact h.popFirst_refusedFor.map _
  | setDefault key w => exact (h.setDefault_refusedFor key w).map _
  | update entries => exact absurd rfl (other entries)
  | clear => exact .ok _ _ fun _ => id
  | addVertex v =>
    refine Edit.RefusedFor.map ?_ _
    unfold Graph.addVertex
    split_ifs
    · exact .ok _ _ fun _ => id
    · exact .ok _ _ fun _ => id
  | removeVertex v => exact h.removeVertex_refusedFor v
  | addEdge source target w =>
    exact ((h.put_refusedFor _ w).map _).congr fun _ => unstorable_toKey_iff

/-- **An operation fails** for the reasons for which it is refused, and for no other ones. -/
theorem result_edit_iff (h : g.WellFormed) (op : Operation) :
    (op.edit g).result = .error f ↔ op.Refused g f := by
  cases op with
  | update entries => exact h.result_update_iff
  | _ => exact (h.edit_refusedFor (by simp)).result_iff

end WellFormed

end Graph

end OptimalMatching
