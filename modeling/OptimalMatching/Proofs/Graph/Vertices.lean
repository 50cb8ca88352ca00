import OptimalMatching.Proofs.Graph.Reachable
/-!
# How vertices come and go

Only one operation removes a vertex (`Operation.removeVertex_notMem`). Every other operation leaves
the vertices as they are and adds new ones behind them (`Graph.WellFormed.vertices_prefix`).
-/

namespace OptimalMatching

/-! ## Operations that remove no vertex -/

section RemovesNone

variable {g : Graph} {v : Vertex} {key : Key} {w : Weight}

theorem Graph.removeVertex_notMem_put : .removeVertex v ∉ (g.put key w).changes := by
  unfold put
  split
  · exact List.not_mem_nil
  · split
    · simp
    · split_ifs
      · exact List.not_mem_nil
      · simp [insertion]

theorem Graph.removeVertex_notMem_delete : .removeVertex v ∉ (g.delete key).changes := by
  unfold delete
  split
  · exact List.not_mem_nil
  · simp

theorem Graph.removeVertex_notMem_deleteAll (keys : List Key) :
    .removeVertex v ∉ (g.deleteAll keys).changes := by
  induction keys generalizing g with
  | nil => exact List.not_mem_nil
  | cons key rest ih =>
    unfold deleteAll Edit.andThen
    split
    · exact removeVertex_notMem_delete
    · simpa [removeVertex_notMem_delete] using ih

theorem Graph.removeVertex_notMem_update (entries : List (Key × Weight)) :
    .removeVertex v ∉ (g.update entries).changes := by
  induction entries generalizing g with
  | nil => exact List.not_mem_nil
  | cons entry rest ih =>
    have first : .removeVertex v ∉ (g.set entry.1 entry.2).changes := removeVertex_notMem_put
    unfold update Edit.andThen
    split
    · exact first
    · simpa [first] using ih

/-- **Only the operation named for it** removes a vertex. -/
theorem Operation.removeVertex_notMem {op : Operation} (other : op ≠ .removeVertex v) :
    .removeVertex v ∉ op.changes g := by
  cases op with
  | set key w => exact Graph.removeVertex_notMem_put
  | delete key => exact Graph.removeVertex_notMem_delete
  | pop key default =>
    show _ ∉ (g.pop key default).changes
    unfold Graph.pop
    split
    · exact Graph.removeVertex_notMem_delete
    · exact List.not_mem_nil
    · exact List.not_mem_nil
  | popFirst =>
    show _ ∉ g.popFirst.changes
    unfold Graph.popFirst
    split
    · exact List.not_mem_nil
    · split
      · exact List.not_mem_nil
      · exact Graph.removeVertex_notMem_delete
  | setDefault key default =>
    show _ ∉ (g.setDefault key default).changes
    unfold Graph.setDefault
    split
    · exact List.not_mem_nil
    · exact Graph.removeVertex_notMem_put
    · exact List.not_mem_nil
  | update entries => exact Graph.removeVertex_notMem_update entries
  | clear =>
    show _ ∉ g.edgeList.map Change.removeEdge
    simp
  | addVertex u =>
    show _ ∉ (g.addVertex u).changes
    unfold Graph.addVertex
    split_ifs
    · exact List.not_mem_nil
    · simp
  | removeVertex u =>
    -- Removing another vertex deletes its edges, and then names that vertex.
    have ne : v ≠ u := fun heq => other (heq ▸ rfl)
    show _ ∉ (g.removeVertex u).changes
    unfold Graph.removeVertex
    split
    · split
      · exact List.not_mem_nil
      · unfold Edit.andThen
        split
        · exact Graph.removeVertex_notMem_deleteAll _
        · simp [Graph.removeVertex_notMem_deleteAll, ne]
    · exact List.not_mem_nil
  | addEdge source target w => exact Graph.removeVertex_notMem_put

end RemovesNone

namespace Graph

variable {g : Graph} {v : Vertex} {c : Change} {cs cs' : List Change} {op : Operation}

/-! ## The vertices after changes -/

/-- A change that removes no vertex keeps the vertices in front. -/
theorem vertices_prefix_apply (fits : c.Fits g) (keeps : ∀ v, c ≠ .removeVertex v) :
    g.vertices <+: (g.apply c).vertices := by
  cases c with
  | addVertex v =>
    rw [vertices_addVertex fits]
    exact List.prefix_append ..
  | removeVertex v => exact absurd rfl (keeps v)
  | addEdge e w => simp
  | removeEdge e => simp
  | reweigh e w => exact List.prefix_rfl

theorem vertices_prefix_applyAll (fits : g.AllFit cs) (keeps : ∀ v, .removeVertex v ∉ cs) :
    g.vertices <+: (g.applyAll cs).vertices := by
  induction cs generalizing g with
  | nil => exact List.prefix_rfl
  | cons c cs ih =>
    have first : ∀ v, c ≠ .removeVertex v := fun v hc => keeps v (hc ▸ List.mem_cons_self)
    have rest : ∀ v, .removeVertex v ∉ cs := fun v hv => keeps v (List.mem_cons_of_mem _ hv)
    exact (vertices_prefix_apply fits.1 first).trans (ih fits.2 rest)

namespace WellFormed

/-- **Vertices stay** where they are, whatever else is done than removing one. -/
theorem vertices_prefix (h : g.WellFormed) (keeps : ∀ v, op ≠ .removeVertex v) (count : Nat) :
    g.vertices <+: (g.applyAll ((op.changes g).take count)).vertices :=
  vertices_prefix_applyAll ((h.allFit op).take count) fun v hv =>
    Operation.removeVertex_notMem (keeps v) (List.mem_of_mem_take hv)

end WellFormed

end Graph

end OptimalMatching
