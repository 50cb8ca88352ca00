import Mathlib.Algebra.BigOperators.Fin
import Mathlib.Algebra.Order.BigOperators.Group.Finset
import OptimalMatching.Assignment.Problem
import OptimalMatching.Proofs.Assignment.Run
import OptimalMatching.Proofs.Graph.Reachable
import OptimalMatching.Proofs.Mates
/-!
# Assignment problems of graphs

**Optimality.** At the end of a run every row is assigned a column with excess zero. The costs of
any assignment are the sum of all potentials and of its excesses; so they are least when all of
these are zero (`Reduced.sum_le`).

**The matching.** A problem that has been accepted has an edge for each cell, and the edges of two
cells in different rows and columns have no common ends. So the edges that are chosen make a
matching, and the weight of it is the sum of the chosen costs (`Problem.solve_spec`).
-/

namespace OptimalMatching

variable {n : Nat}

/-- **Complementary slackness.** An assignment with excess zero everywhere has the least cost. -/
theorem Reduced.sum_le {cost c : Fin n → Fin n → Int} (reduced : Reduced cost c)
    {σ : Equiv.Perm (Fin n)} (zero : ∀ i, c i (σ i) = 0) (τ : Equiv.Perm (Fin n)) :
    ∑ i, cost i (σ i) ≤ ∑ i, cost i (τ i) := by
  obtain ⟨u, v, huv⟩ := reduced.potentials
  have htotal : ∀ τ : Equiv.Perm (Fin n),
      ∑ i, cost i (τ i) = ∑ i, u i + ∑ j, v j + ∑ i, c i (τ i) := by
    intro τ
    rw [← Equiv.sum_comp τ v, ← Finset.sum_add_distrib, ← Finset.sum_add_distrib]
    refine Finset.sum_congr rfl fun i _ => ?_
    rw [huv i (τ i)]
    omega
  rw [htotal σ, htotal τ, Finset.sum_eq_zero fun i _ => zero i, add_zero]
  have hnonneg : 0 ≤ ∑ i, c i (τ i) := Finset.sum_nonneg fun i _ => reduced.nonneg i (τ i)
  omega

theorem Weight.sum?_ints (l : List Int) : sum? (l.map .int) = some (.int l.sum) := by
  have fold : ∀ (l : List Int) (a : Int),
      (l.map Weight.int).foldlM add? (.int a) = some (.int (a + l.sum)) := by
    intro l
    induction l with
    | nil => simp
    | cons b l ih =>
      intro a
      rw [List.map_cons, List.foldlM_cons, add?_int, List.sum_cons, ← Int.add_assoc]
      exact ih (a + b)
  rw [sum?, fold, Int.zero_add]

namespace Assignment.Problem

variable {view : View} {first second : List Vertex} {problem : Problem}

/-- What a problem that has been accepted satisfies. -/
theorem ofView_eq_ok_iff : ofView view first second = .ok problem ↔
    ∃ same : second.length = first.length, first.Nodup ∧ second.Nodup ∧ (∀ v ∈ first, v ∉ second) ∧
      view.edgeList.length = first.length * first.length ∧
        ∃ edges : Grid Edge first.length, problem = ⟨first.length, edges⟩ ∧ ∀ i j,
          costEdge view (first.get i) (second.get (j.cast same.symm)) = .ok (edges.cell i j) := by
  unfold ofView
  dsimp only
  split_ifs with same hrepeated hshared hcount
  · refine iff_of_false nofun ?_
    rintro ⟨-, hfirst, hsecond, -⟩
    exact hrepeated.elim (fun h => h hfirst) fun h => h hsecond
  · refine iff_of_false nofun ?_
    rintro ⟨-, -, -, hdisjoint, -⟩
    obtain ⟨v, hv, hv'⟩ := List.any_eq_true.1 hshared
    exact hdisjoint v hv (by simpa using hv')
  · refine iff_of_false nofun ?_
    rintro ⟨-, -, -, -, hcount', -⟩
    exact hcount hcount'
  · -- All checks are passed, and what is left is the table of edges.
    rw [not_or, not_not, not_not] at hrepeated
    have hdisjoint : ∀ v ∈ first, v ∉ second := by simpa using hshared
    simp only [bind, Except.bind, pure, Except.pure]
    constructor
    · intro h
      split at h
      · cases h
      · next edges hedges =>
        obtain rfl := Except.ok.inj h
        exact ⟨same, hrepeated.1, hrepeated.2, hdisjoint, not_not.1 hcount, edges, rfl,
          Grid.tabulateM_eq_ok_iff.1 hedges⟩
    · rintro ⟨_, -, -, -, -, edges, hproblem, hedges⟩
      rw [hproblem, Grid.tabulateM_eq_ok_iff.2 hedges]
  · refine iff_of_false nofun ?_
    rintro ⟨same', -⟩
    exact same same'

theorem costEdge_eq_ok_iff {s t : Vertex} {e : Edge} : costEdge view s t = .ok e ↔
    view.edge? s t = some e ∧ ∃ w, view.weight e.toKey = .ok w ∧ w.isCost = true := by
  unfold costEdge
  cases view.edge? s t with
  | none => simp
  | some e' =>
    simp only [bind, Except.bind, Option.some_inj]
    constructor
    · intro h
      split at h
      · cases h
      · next w hw =>
        split_ifs at h with hcost
        obtain rfl := Except.ok.inj h
        exact ⟨rfl, w, hw, hcost⟩
    · rintro ⟨rfl, w, hw, hcost⟩
      rw [hw]
      exact if_pos hcost

theorem edge?_of_costEdge {s t : Vertex} {e : Edge} (h : costEdge view s t = .ok e) :
    view.edge? s t = some e :=
  (costEdge_eq_ok_iff.1 h).1

/-! ## The edges of a problem -/

section Edges

variable (same : second.length = first.length) {edges : Grid Edge first.length}
  (wf : view.graph.WellFormed) (hedges : ∀ i j,
    costEdge view (first.get i) (second.get (j.cast same.symm)) = .ok (edges.cell i j))

include wf hedges

theorem stored_of_costEdge (i j : Fin first.length) : edges.cell i j ∈ view.edgeList :=
  (wf.edge?_iff.1 (edge?_of_costEdge (hedges i j))).1

theorem touches_of_costEdge {i j : Fin first.length} {v : Vertex} :
    (edges.cell i j).touches v = true ↔ v = first.get i ∨ v = second.get (j.cast same.symm) :=
  Graph.touches_iff_of_joins (wf.edge?_iff.1 (edge?_of_costEdge (hedges i j))).2

/-- Cells in different rows and columns have edges without common ends. -/
theorem apart_of_costEdge (hfirst : first.Nodup) (hsecond : second.Nodup)
    (disjoint : ∀ v ∈ first, v ∉ second) {i i' j j' : Fin first.length} (hi : i ≠ i')
    (hj : j ≠ j') : (edges.cell i j).Apart (edges.cell i' j') := by
  intro v hv hv'
  rcases (touches_of_costEdge same wf hedges).1 hv with rfl | rfl <;>
    rcases (touches_of_costEdge same wf hedges).1 hv' with heq | heq
  · exact hi (hfirst.get_inj_iff.1 heq)
  · exact disjoint _ (List.get_mem first i) (heq ▸ List.get_mem second _)
  · exact disjoint _ (List.get_mem first i') (heq ▸ List.get_mem second _)
  · exact hj (Fin.cast_injective _ (hsecond.get_inj_iff.1 heq))

/-- **The edges that a permutation chooses** cover every vertex of the partitions once. -/
theorem perfect_of_chosen {chosen : List Edge} {σ : Equiv.Perm (Fin first.length)}
    (hchosen : chosen = (List.finRange first.length).map fun i => edges.cell i (σ i))
    (apart : chosen.Pairwise Edge.Apart) :
    chosen.map some = (List.finRange first.length).map
        (fun i => view.edge? (first.get i) (second.get ((σ i).cast same.symm))) ∧
      (∀ e ∈ chosen, e ∈ view.edgeList) ∧ chosen.Nodup ∧
        ∀ v, v ∈ first ∨ v ∈ second → ∃! e, e ∈ chosen ∧ e.touches v = true := by
  refine ⟨?_, fun e he => ?_, nodup_of_apart apart, fun v hv => ?_⟩
  · rw [hchosen, List.map_map]
    exact List.map_congr_left fun i _ => (edge?_of_costEdge (hedges i (σ i))).symm
  · rw [hchosen] at he
    obtain ⟨i, -, rfl⟩ := List.mem_map.1 he
    exact stored_of_costEdge same wf hedges i _
  · obtain ⟨i, hi⟩ : ∃ i, (edges.cell i (σ i)).touches v = true := by
      rcases hv with hv | hv
      · obtain ⟨i, rfl⟩ := List.mem_iff_get.1 hv
        exact ⟨i, (touches_of_costEdge same wf hedges).2 (.inl rfl)⟩
      · obtain ⟨j, rfl⟩ := List.mem_iff_get.1 hv
        refine ⟨σ.symm (j.cast same), (touches_of_costEdge same wf hedges).2 (.inr ?_)⟩
        rw [Equiv.apply_symm_apply]
        rfl
    have hmem : edges.cell i (σ i) ∈ chosen := by
      rw [hchosen]
      exact List.mem_map.2 ⟨i, List.mem_finRange i, rfl⟩
    exact ⟨_, ⟨hmem, hi⟩, fun e he => eq_of_touches apart he.1 hmem he.2 hi⟩

end Edges

/-! ## Solving a problem -/

section Solve

variable {edges : Grid Edge n} {cost : Fin n → Fin n → Int}
  (stored : ∀ i j, edges.cell i j ∈ view.edgeList)
  (apart : ∀ {i i' j j'}, i ≠ i' → j ≠ j' → (edges.cell i j).Apart (edges.cell i' j'))
  (weighs : ∀ i j, view.weight (edges.cell i j).toKey = .ok (.int (cost i j)))

/-- A problem whose excess is found and whose run assigns the columns is solved by their edges. -/
theorem solve_eq_conclude {c e : Costs n} {columns : Table (Fin n) n} (ne : n ≠ 0)
    (hc : costs ⟨n, edges⟩ view = .ok c) (he : c.excess? = some e)
    (hcolumns : (Run.ofExcess e).assignment = .ok columns) :
    (solve ⟨n, edges⟩ view).result = (conclude ⟨n, edges⟩ view columns).result := by
  unfold solve
  rw [if_neg ne, hc]
  dsimp only
  rw [he]
  dsimp only
  rw [hcolumns]

include apart in
theorem chosen_apart {columns : Table (Fin n) n} (injective : Function.Injective columns.get) :
    (chosen ⟨n, edges⟩ columns).Pairwise Edge.Apart :=
  List.pairwise_map.2 ((List.nodup_finRange n).imp fun hne => apart hne (injective.ne hne))

include weighs in
theorem costs_eq : costs ⟨n, edges⟩ view = .ok (Costs.ofInts cost) := by
  refine Grid.tabulateM_eq_ok_iff.2 fun i j => ?_
  rw [Costs.cell_ofInts]
  exact weighs i j

theorem weights_of_chosen {columns : Table (Fin n) n} {w : Fin n → Weight}
    (hw : ∀ i, view.weight (edges.cell i (columns.get i)).toKey = .ok (w i)) :
    (chosen ⟨n, edges⟩ columns).mapM (fun e => view.weight e.toKey) =
      .ok ((List.finRange n).map w) := by
  have hchosen : chosen ⟨n, edges⟩ columns =
      (List.finRange n).map fun i => edges.cell i (columns.get i) := rfl
  rw [hchosen, List.mapM_map]
  exact mapM_eq_ok fun i _ => hw i

include stored apart in
/-- The edges that an assignment chooses make a matching, if their weights can be added. -/
theorem conclude_eq {columns : Table (Fin n) n} (injective : Function.Injective columns.get)
    {w : Fin n → Weight} (hw : ∀ i, view.weight (edges.cell i (columns.get i)).toKey = .ok (w i))
    {total : Weight} (htotal : Weight.sum? ((List.finRange n).map w) = some total) :
    ∃ mates, (conclude ⟨n, edges⟩ view columns).result =
      .ok ⟨chosen ⟨n, edges⟩ columns, total, mates⟩ := by
  have hstored : ∀ e ∈ chosen ⟨n, edges⟩ columns, e ∈ view.edgeList := by
    intro e he
    obtain ⟨i, -, rfl⟩ := List.mem_map.1 he
    exact stored i _
  obtain ⟨mates, hmates⟩ := Matching.ofEdges_eq_ok total
    (fun e he => Graph.endpoints_eq (hstored e he)) (chosen_apart apart injective)
  refine ⟨mates, ?_⟩
  unfold conclude
  dsimp only
  rw [weights_of_chosen hw]
  dsimp only
  rw [htotal]
  exact hmates

include stored apart weighs

theorem conclude_spec {columns : Table (Fin n) n} (injective : Function.Injective columns.get) :
    ∃ mates, (conclude ⟨n, edges⟩ view columns).result =
      .ok ⟨chosen ⟨n, edges⟩ columns, .int (∑ i, cost i (columns.get i)), mates⟩ := by
  refine conclude_eq stored apart injective (fun i => weighs i (columns.get i)) ?_
  rw [Costs.map_ints, Weight.sum?_ints, ← Fin.sum_univ_def]

/-- **A problem with integer costs is solved** by an assignment of least cost. -/
theorem solve_spec : ∃ m, ∃ σ : Equiv.Perm (Fin n), (solve ⟨n, edges⟩ view).result = .ok m ∧
    m.edges = (List.finRange n).map (fun i => edges.cell i (σ i)) ∧ m.edges.Pairwise Edge.Apart ∧
      m.value = .int (∑ i, cost i (σ i)) ∧
        ∀ τ : Equiv.Perm (Fin n), ∑ i, cost i (σ i) ≤ ∑ i, cost i (τ i) := by
  by_cases hzero : n = 0
  · subst hzero
    exact ⟨.empty, Equiv.refl _, rfl, rfl, .nil, rfl, fun τ => le_of_eq rfl⟩
  · obtain ⟨c₀, hc₀, reduced⟩ := Costs.excess?_ofInts cost
    obtain ⟨q, columns, c, hending, hq, valid, reduced', -, -⟩ := Run.ofExcess_ends reduced
    have bijective := bijective_of_assignment? valid hq
    obtain ⟨mates, hmates⟩ := conclude_spec stored apart weighs bijective.injective
    have hassignment : (Run.ofExcess (Costs.ofInts c₀)).assignment = .ok columns := by
      rw [Run.assignment, hending]
    refine ⟨⟨chosen ⟨n, edges⟩ columns, .int (∑ i, cost i (columns.get i)), mates⟩,
      Equiv.ofBijective columns.get bijective, ?_, rfl,
      chosen_apart apart bijective.injective, rfl, fun τ => reduced'.sum_le (fun i => ?_) τ⟩
    · rw [solve_eq_conclude hzero (costs_eq weighs) hc₀ hassignment]
      exact hmates
    · exact zeros_iff.1 (valid.tight (Pairing.assignment?_eq_some_iff.1 hq i))

end Solve

end Assignment.Problem

/-- **The perfect matching** between two partitions that are accepted, with integer weights,
consists of one stored edge for each vertex of the first partition and the vertex of the second
that a permutation assigns to it. It covers every vertex of the partitions once, its value is the
sum of the weights of its edges, and no permutation gives less. -/
theorem minimumPerfectMatching_isMinimum {view : View} (reachable : view.Reachable)
    {first second : List Vertex} (same : second.length = first.length)
    {problem : Assignment.Problem}
    (accepted : Assignment.Problem.ofView view first second = .ok problem)
    {cost : Fin first.length → Fin first.length → Int}
    (weighs : ∀ i j, ∃ e, view.edge? (first.get i) (second.get (j.cast same.symm)) = some e ∧
      view.weight e.toKey = .ok (.int (cost i j))) :
    ∃ m, ∃ σ : Equiv.Perm (Fin first.length),
      (minimumPerfectMatching view first second).result = .ok m ∧
      m.edges.map some = (List.finRange first.length).map
        (fun i => view.edge? (first.get i) (second.get ((σ i).cast same.symm))) ∧
      (∀ e ∈ m.edges, e ∈ view.edgeList) ∧ m.edges.Nodup ∧
      (∀ v, v ∈ first ∨ v ∈ second → ∃! e, e ∈ m.edges ∧ e.touches v = true) ∧
      m.value = .int (∑ i, cost i (σ i)) ∧
        ∀ τ : Equiv.Perm (Fin first.length), ∑ i, cost i (σ i) ≤ ∑ i, cost i (τ i) := by
  have wf := reachable.wellFormed
  obtain ⟨_, hfirst, hsecond, disjoint, -, edges, hproblem, hedges⟩ :=
    Assignment.Problem.ofView_eq_ok_iff.1 accepted
  obtain ⟨m, σ, hm, hchosen, hapart, hvalue, hleast⟩ :=
    Assignment.Problem.solve_spec (Assignment.Problem.stored_of_costEdge same wf hedges)
      (Assignment.Problem.apart_of_costEdge same wf hedges hfirst hsecond disjoint) fun i j => by
        obtain ⟨e, he, hw⟩ := weighs i j
        have hedge := Assignment.Problem.edge?_of_costEdge (hedges i j)
        rwa [← Option.some.inj (hedge.symm.trans he)] at hw
  obtain ⟨hedge, hstored, hnodup, hcover⟩ :=
    Assignment.Problem.perfect_of_chosen same wf hedges hchosen hapart
  refine ⟨m, σ, ?_, hedge, hstored, hnodup, hcover, hvalue, hleast⟩
  rw [minimumPerfectMatching, accepted, hproblem]
  exact hm

/-- Two workers and two tasks. One edge is stored from the task to the worker. -/
def wages : Graph :=
  (Graph.empty false).applyAll (Operation.changes (Graph.empty false)
    (.update [(.tuple [.int 1, .text "a"], .int 3), (.tuple [.int 1, .text "b"], .int 5),
      (.tuple [.text "a", .int 2], .int 1), (.tuple [.int 2, .text "b"], .int 4)]))

/-- What the workers take for the tasks. -/
def wage (i j : Fin 2) : Int := if i = 0 then if j = 0 then 3 else 5 else if j = 0 then 1 else 4

theorem minimumPerfectMatching_isMinimum_wages :
    (View.ofGraph wages).Reachable ∧
      (∃ problem, Assignment.Problem.ofView (.ofGraph wages) [.int 1, .int 2]
        [.text "a", .text "b"] = .ok problem) ∧
      (∀ i j, ∃ e, (View.ofGraph wages).edge? ([.int 1, .int 2].get i)
        ([.text "a", .text "b"].get j) = some e ∧
          (View.ofGraph wages).weight e.toKey = .ok (.int (wage i j))) ∧
      ∃ m, ∃ σ : Equiv.Perm (Fin 2),
        (minimumPerfectMatching (.ofGraph wages) [.int 1, .int 2] [.text "a", .text "b"]).result =
          .ok m ∧ m.value = .int (∑ i, wage i (σ i)) ∧
            ∀ τ : Equiv.Perm (Fin 2), ∑ i, wage i (σ i) ≤ ∑ i, wage i (τ i) := by
  have reachable : (View.ofGraph wages).Reachable := .graph ((Graph.Reachable.empty false).whole _)
  have accepted : (Assignment.Problem.ofView (.ofGraph wages) [.int 1, .int 2]
      [.text "a", .text "b"]).isOk = true := by decide +kernel
  have weighs : ∀ i j, ∃ e, (View.ofGraph wages).edge? ([.int 1, .int 2].get i)
      ([.text "a", .text "b"].get j) = some e ∧
        (View.ofGraph wages).weight e.toKey = .ok (.int (wage i j)) := fun i j =>
    match i, j with
    | 0, 0 | 0, 1 | 1, 0 | 1, 1 => ⟨_, rfl, rfl⟩
  cases h : Assignment.Problem.ofView (.ofGraph wages) [.int 1, .int 2] [.text "a", .text "b"] with
  | error f =>
    rw [h] at accepted
    cases accepted
  | ok problem =>
    obtain ⟨m, σ, hm, -, -, -, -, hvalue, hleast⟩ :=
      @minimumPerfectMatching_isMinimum _ reachable [.int 1, .int 2] [.text "a", .text "b"] rfl _ h
        wage weighs
    exact ⟨reachable, ⟨problem, rfl⟩, weighs, m, σ, hm, hvalue, hleast⟩

end OptimalMatching
