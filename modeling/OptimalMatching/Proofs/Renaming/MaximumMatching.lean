import OptimalMatching.Proofs.Blossom.MaximumMatching
import OptimalMatching.Proofs.Renaming.Matching
/-!
# Maximum matchings of renamed graphs

The algorithm works on positions. A renamed vertex stands at the position of the vertex
(`position?_rename`), so the neighbors by position are the same, and so is the run. Only the number
of positions is written in another way, and a run does not depend on how it is written
(`Run.ofNeighbors?_cast`). The pairs of the run then have the renamed edges.
-/

namespace OptimalMatching.Blossom

variable (f : Vertex ↪ Vertex) {view : View}

/-! ## Positions -/

theorem length_vertices_rename (view : View) :
    view.vertices.length = (view.rename f).vertices.length := by
  simp

theorem get_rename (i : Fin view.vertices.length) :
    (view.rename f).vertices.get (i.cast (length_vertices_rename f view)) =
      f (view.vertices.get i) := by
  simp

theorem position?_rename (v : Vertex) :
    position? (view.rename f).vertices (f v) =
      (position? view.vertices v).map (Fin.cast (length_vertices_rename f view)) := by
  refine Option.ext fun j => ?_
  rw [position?_eq_some_iff (nodup_vertices _), Option.map_eq_some_iff]
  constructor
  · intro hj
    refine ⟨j.cast (length_vertices_rename f view).symm, ?_, rfl⟩
    rw [position?_eq_some_iff (nodup_vertices view)]
    exact f.injective ((get_rename f _).symm.trans hj)
  · rintro ⟨i, hi, rfl⟩
    rw [get_rename, (position?_eq_some_iff (nodup_vertices view)).1 hi]

theorem neighborsOf_rename (wf : view.graph.WellFormed)
    {neighbors : Neighbors view.vertices.length} (h : neighborsOf view = .ok neighbors) :
    ∃ neighbors', neighborsOf (view.rename f) = .ok neighbors' ∧
      ∀ i, neighbors'.get (i.cast (length_vertices_rename f view)) =
        (neighbors.get i).map (Fin.cast (length_vertices_rename f view)) := by
  have same := length_vertices_rename f view
  refine ⟨.ofFn fun i => (neighbors.get (i.cast same.symm)).map (Fin.cast same),
    Table.tabulateM_eq_ok_iff.2 fun i => ?_, fun i => by simp⟩
  have hi := Table.tabulateM_eq_ok_iff.1 h (i.cast same.symm)
  have hget : (view.rename f).vertices.get i = f (view.vertices.get (i.cast same.symm)) :=
    get_rename f (i.cast same.symm)
  have hlist : (view.rename f).neighborList (f (view.vertices.get (i.cast same.symm))) =
      renameResult f (List.map f) (view.neighborList (view.vertices.get (i.cast same.symm))) :=
    wf.neighborList_rename f _
  rw [hget, hlist, Table.get_ofFn]
  refine (renameResult_bind f (view.neighborList _) fun us _ => ?_).trans
    (congrArg (renameResult f (List.map (Fin.cast same))) hi)
  refine mapM_rename f fun u _ => ?_
  rw [position?_rename]
  cases position? view.vertices u <;> rfl

/-! ## The run -/

/-- A run does not depend on how the number of positions is written. -/
theorem Run.ofNeighbors?_cast {n n' : Nat} (same : n = n') {neighbors : Neighbors n}
    {neighbors' : Neighbors n'}
    (alike : ∀ i, neighbors'.get (i.cast same) = (neighbors.get i).map (Fin.cast same)) {r : Run n}
    (hr : ofNeighbors? neighbors = some r) :
    ∃ r', ofNeighbors? neighbors' = some r' ∧ r'.reports = r.reports ∧
      r'.pairs = r.pairs.map (Prod.map (Fin.cast same) (Fin.cast same)) := by
  subst same
  have hsame : neighbors' = neighbors := Table.ext fun i => by simpa using alike i
  exact ⟨r, hsame ▸ hr, rfl, by simp⟩

theorem Run.edges_rename {r : Run view.vertices.length} {r' : Run (view.rename f).vertices.length}
    (hpairs : r'.pairs = r.pairs.map (Prod.map (Fin.cast (length_vertices_rename f view))
      (Fin.cast (length_vertices_rename f view)))) :
    r'.edges (view.rename f) = (r.edges view).map (Edge.rename f) := by
  unfold edges
  rw [hpairs, List.filterMap_map, List.map_filterMap]
  refine List.filterMap_congr fun p _ => ?_
  obtain ⟨i, j⟩ := p
  show (view.rename f).edge? ((view.rename f).vertices.get (i.cast _))
    ((view.rename f).vertices.get (j.cast _)) = _
  rw [get_rename, get_rename, View.edge?_rename]

theorem Run.storedEdges_rename {r : Run view.vertices.length}
    {r' : Run (view.rename f).vertices.length}
    (hpairs : r'.pairs = r.pairs.map (Prod.map (Fin.cast (length_vertices_rename f view))
      (Fin.cast (length_vertices_rename f view))))
    (hedge : ∀ i j, (i, j) ∈ r.pairs →
      (view.edge? (view.vertices.get i) (view.vertices.get j)).isSome) :
    r'.storedEdges (view.rename f) =
      renameResult f (List.map (Edge.rename f)) (r.storedEdges view) := by
  unfold storedEdges
  rw [hpairs]
  refine mapM_rename f fun p hp => ?_
  obtain ⟨i, j⟩ := p
  obtain ⟨e, he⟩ := Option.isSome_iff_exists.1 (hedge i j hp)
  dsimp only [Prod.map]
  rw [get_rename, get_rename, View.edge?_rename, he]
  rfl

/-! ## The matching -/

theorem compute_rename (wf : view.graph.WellFormed) (undirected : view.directed = false) :
    compute (view.rename f) = (compute view).rename f := by
  by_cases hempty : view.vertices = []
  · have hcompute : compute view = ⟨[], .ok .empty⟩ := if_pos (by simp [hempty])
    have hcompute' : compute (view.rename f) = ⟨[], .ok .empty⟩ := if_pos (by simp [hempty])
    rw [hcompute, hcompute']
    rfl
  · obtain ⟨neighbors, hneighbors, represents⟩ := neighborsOf_spec wf undirected
    obtain ⟨neighbors', hneighbors', alike⟩ := neighborsOf_rename f wf hneighbors
    obtain ⟨r, hr, valid, -, hstored, hlength, mates, hm⟩ :=
      Run.ofNeighbors?_edges wf undirected represents
    -- Positions have no names, so the two runs are the same.
    obtain ⟨r', hr', hreports, hpairs⟩ := Run.ofNeighbors?_cast _ alike hr
    have hedges := Run.edges_rename f hpairs
    have hm' : Matching.ofEdges (fun e => (view.rename f).endpoints e.toKey)
        (r'.edges (view.rename f)) (.int (r'.edges (view.rename f)).length) =
          .ok (Matching.rename f ⟨r.edges view, .int (r.edges view).length, mates⟩) := by
      rw [hedges, List.length_map]
      refine (Matching.ofEdges_rename f _ fun e he => ?_).trans (congrArg (renameResult f _) hm)
      exact Graph.endpoints_rename f (Run.edges_stored wf e he)
    have hstored' : r'.storedEdges (view.rename f) = .ok (r'.edges (view.rename f)) := by
      rw [Run.storedEdges_rename f hpairs fun _ _ =>
        Run.isSome_edge?_of_mem_pairs represents valid, hstored, hedges]
      rfl
    have hlength' : (r'.edges (view.rename f)).length = r'.pairs.length := by
      rw [hedges, hpairs, List.length_map, List.length_map, hlength]
    rw [compute_eq hempty hneighbors hr hstored hlength hm,
      compute_eq (by simpa using hempty) hneighbors' hr' hstored' hlength' hm', hreports, hedges,
      List.length_map,
      ← length_vertices_rename]
    rfl

end OptimalMatching.Blossom

namespace OptimalMatching

/-- **The maximum matching** of the renamed graph is the renamed maximum matching. -/
theorem maximumMatching_rename (f : Vertex ↪ Vertex) {view : View}
    (wf : view.graph.WellFormed) :
    maximumMatching (view.rename f) = (maximumMatching view).rename f := by
  have hkind : Blossom.checkKind (view.rename f) = Blossom.checkKind view := rfl
  unfold maximumMatching
  rw [hkind]
  cases hdirected : view.directed with
  | true =>
    rw [Blossom.checkKind, if_pos hdirected]
    rfl
  | false =>
    rw [Blossom.checkKind, if_neg (by simp [hdirected])]
    split_ifs
    · rfl
    · exact Blossom.compute_rename f wf hdirected

end OptimalMatching
