import OptimalMatching.Proofs.Assignment.Problem
import OptimalMatching.Proofs.Renaming.Matching
/-!
# Assignment problems of renamed graphs

The problem of the renamed partitions has the renamed edges in the same cells
(`Problem.ofView_rename`), or is refused for the renamed reason. Its costs are the same, so the run
is the same and chooses the same cells (`Problem.solve_rename`).
-/

namespace OptimalMatching.Assignment

variable (f : Vertex ↪ Vertex) {view : View}

/-- The failure of a run names no vertices. -/
theorem Run.reason_rename {n : Nat} {r : Run n} {reason : Failure}
    (h : r.assignment = .error reason) : reason.rename f = reason := by
  unfold assignment at h
  cases hending : r.ending <;> rw [hending] at h <;> cases h <;> rfl

namespace Problem

def rename (p : Problem) : Problem := ⟨p.size, p.edges.map (Table.map (Edge.rename f))⟩

theorem cell_rename (p : Problem) (i j : Fin p.size) :
    (p.rename f).edges.cell i j = (p.edges.cell i j).rename f := by
  simp [rename, Grid.cell]

/-! ## The problem -/

theorem costEdge_rename (wf : view.graph.WellFormed) (s t : Vertex) :
    costEdge (view.rename f) (f s) (f t) = renameResult f (Edge.rename f) (costEdge view s t) := by
  unfold costEdge
  rw [View.edge?_rename]
  cases hedge : view.edge? s t with
  | none => rfl
  | some e =>
    obtain ⟨w, hw⟩ := view.exists_weight (wf.edge?_iff.1 hedge).1
    dsimp only [Option.map_some]
    rw [View.weight_rename f (wf.edge?_iff.1 hedge).1, hw]
    show (if w.isCost then _ else _) = renameResult f _ (if w.isCost then _ else _)
    split_ifs <;> rfl

/-- A problem is put together from its cells in the same way however its size is written. -/
theorem ofCells_cast {n n' : Nat} (same : n' = n) {c : Fin n → Fin n → Except Failure Edge}
    {c' : Fin n' → Fin n' → Except Failure Edge}
    (alike : ∀ i j, c' i j = renameResult f (Edge.rename f) (c (i.cast same) (j.cast same))) :
    (Grid.tabulateM c').bind (fun edges => .ok (⟨n', edges⟩ : Problem)) =
      renameResult f (rename f) ((Grid.tabulateM c).bind fun edges => .ok ⟨n, edges⟩) := by
  subst same
  rw [Grid.tabulateM_rename f alike]
  exact renameResult_bind f (Grid.tabulateM c) fun edges _ => rfl

/-- **The problem** of the renamed graph with the renamed partitions. -/
theorem ofView_rename (wf : view.graph.WellFormed) (first second : List Vertex) :
    ofView (view.rename f) (first.map f) (second.map f) =
      renameResult f (rename f) (ofView view first second) := by
  unfold ofView
  by_cases same : second.length = first.length
  · have same' : (second.map f).length = (first.map f).length := by simpa using same
    have hrepeated : ¬ (first.map f).Nodup ∨ ¬ (second.map f).Nodup ↔
        ¬ first.Nodup ∨ ¬ second.Nodup := by
      rw [List.nodup_map_iff f.injective, List.nodup_map_iff f.injective]
    have hshared : (first.map f).any (· ∈ second.map f) = true ↔ first.any (· ∈ second) = true := by
      simp
    rw [dif_pos same, dif_pos same']
    refine renameResult_check f hrepeated (by rfl) ?_
    refine renameResult_check f hshared (by rfl) ?_
    refine renameResult_check f (by simp) (by simp [Failure.rename, Unfit.rename]) ?_
    refine ofCells_cast f (List.length_map f) fun i j => ?_
    rw [← costEdge_rename f wf]
    simp
  · have same' : ¬ (second.map f).length = (first.map f).length := by simpa using same
    rw [dif_neg same, dif_neg same']
    rfl

/-! ## The matching -/

section Solve

variable {p : Problem} (stored : ∀ i j, p.edges.cell i j ∈ view.edgeList)

include stored

theorem exists_costs : ∃ c, p.costs view = .ok c := by
  cases hc : p.costs view with
  | ok c => exact ⟨c, rfl⟩
  | error reason =>
    obtain ⟨i, j, hij⟩ := Grid.exists_of_tabulateM_eq_error hc
    obtain ⟨w, hw⟩ := view.exists_weight (stored i j)
    rw [hw] at hij
    cases hij

theorem costs_rename : (p.rename f).costs (view.rename f) = p.costs view := by
  have hweight : ∀ i j : Fin p.size, (view.rename f).weight ((p.rename f).edges.cell i j).toKey =
      view.weight (p.edges.cell i j).toKey := by
    intro i j
    rw [cell_rename, View.weight_rename f (stored i j)]
  exact congrArg Grid.tabulateM (funext fun i => funext fun j => hweight i j)

omit stored in
theorem chosen_rename (columns : Table (Fin p.size) p.size) :
    (p.rename f).chosen columns = (p.chosen columns).map (Edge.rename f) := by
  unfold chosen
  rw [List.map_map]
  exact List.map_congr_left fun i _ => cell_rename f p i (columns.get i)

theorem conclude_rename (columns : Table (Fin p.size) p.size) :
    (p.rename f).conclude (view.rename f) columns = (p.conclude view columns).rename f := by
  have hstored : ∀ e ∈ p.chosen columns, e ∈ view.edgeList := by
    intro e he
    obtain ⟨i, -, rfl⟩ := List.mem_map.1 he
    exact stored i _
  have hweights : ((p.chosen columns).map (Edge.rename f)).mapM
      (fun e => (view.rename f).weight e.toKey) =
        renameResult f (List.map id) ((p.chosen columns).mapM fun e => view.weight e.toKey) := by
    refine mapM_rename f fun e he => ?_
    obtain ⟨w, hw⟩ := view.exists_weight (hstored e he)
    rw [View.weight_rename f (hstored e he), hw]
    rfl
  have hmatching : ∀ total, Matching.ofEdges (fun e => (view.rename f).endpoints e.toKey)
      ((p.chosen columns).map (Edge.rename f)) total = renameResult f (Matching.rename f)
        (Matching.ofEdges (fun e => view.endpoints e.toKey) (p.chosen columns) total) :=
    fun total => Matching.ofEdges_rename f total fun e he =>
      Graph.endpoints_rename f (hstored e he)
  unfold conclude
  dsimp only
  rw [chosen_rename, hweights]
  -- The weights are the same numbers, so their sum is the same or too large in both.
  cases (p.chosen columns).mapM fun e => view.weight e.toKey with
  | error reason => rfl
  | ok weights =>
    simp only [renameResult, List.map_id, List.length_map, hmatching]
    cases Weight.sum? weights <;> rfl

/-- **The solution** of the renamed problem. -/
theorem solve_rename : (p.rename f).solve (view.rename f) = (p.solve view).rename f := by
  -- The size of the problem is made a variable: both sides are then about grids of one size.
  obtain ⟨n, edges⟩ := p
  have hcosts : costs ⟨n, edges.map (Table.map (Edge.rename f))⟩ (view.rename f) =
      costs ⟨n, edges⟩ view := costs_rename f stored
  have hconclude : ∀ columns,
      conclude ⟨n, edges.map (Table.map (Edge.rename f))⟩ (view.rename f) columns =
        (conclude ⟨n, edges⟩ view columns).rename f := conclude_rename f stored
  obtain ⟨c, hc⟩ := exists_costs stored
  show solve ⟨n, edges.map (Table.map (Edge.rename f))⟩ (view.rename f) = _
  unfold solve
  by_cases hzero : n = 0
  · rw [if_pos hzero, if_pos hzero]
    rfl
  · rw [if_neg hzero, if_neg hzero, hcosts, hc]
    simp only [hconclude]
    cases c.excess? with
    | none => rfl
    | some excess =>
      dsimp only
      cases h : (Run.ofExcess excess).assignment with
      | error reason =>
        show (⟨_, .error reason⟩ : Outcome (Matching Edge)) = ⟨_, .error (reason.rename f)⟩
        rw [Run.reason_rename f h]
      | ok columns => rfl

end Solve

end Problem

end OptimalMatching.Assignment

namespace OptimalMatching

/-- **The minimum perfect matching** of the renamed graph between the renamed partitions is the
renamed minimum perfect matching. -/
theorem minimumPerfectMatching_rename (f : Vertex ↪ Vertex) {view : View}
    (wf : view.graph.WellFormed) (first second : List Vertex) :
    minimumPerfectMatching (view.rename f) (first.map f) (second.map f) =
      (minimumPerfectMatching view first second).rename f := by
  unfold minimumPerfectMatching
  rw [Assignment.Problem.ofView_rename f wf]
  cases h : Assignment.Problem.ofView view first second with
  | error reason => rfl
  | ok problem =>
    obtain ⟨same, -, -, -, -, edges, rfl, hedges⟩ := Assignment.Problem.ofView_eq_ok_iff.1 h
    exact Assignment.Problem.solve_rename f
      (Assignment.Problem.stored_of_costEdge same wf hedges)

end OptimalMatching
