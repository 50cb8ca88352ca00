import OptimalMatching.Proofs.Assignment.Acceptance
import OptimalMatching.Proofs.Assignment.Bounded
/-!
# When a perfect matching is found

A problem is accepted when each of its weights is a finite number that is not negative. That does
not say that the weights can be combined with one another. An integer may be too large to become a
float, and then it cannot be added to a float or subtracted from it. So not every problem that is
accepted is solved (`accepted_without_matching`).

**Nothing else can happen.** A problem that is accepted is solved by a perfect matching, or it is
given up for this reason. It is solved if the weights are all integers, which are combined exactly,
and if they are all floats, even when their sums come to be infinite. It is solved as well if the
weights are mixed and none of them is very large (`minimumPerfectMatching_result`).
-/

namespace OptimalMatching

open Weight

theorem Weight.finite_of_isCost {w : Weight} (h : w.isCost = true) : w.IsFinite ∧ 0 ≤ w.num := by
  obtain ⟨m, q, hnumber, hm⟩ := isCost_iff.1 h
  have hvalue : w.value? = some ((m : ℚ) * 2 ^ q) := by
    rw [value?, hnumber]
    rfl
  obtain ⟨finite, hnum⟩ := finite_of_value? hvalue
  refine ⟨finite, ?_⟩
  rw [hnum]
  exact mul_nonneg (by exact_mod_cast hm) (two_zpow_pos q).le

theorem Weight.le_moderate {w : Weight} (finite : w.IsFinite)
    (h : w.le (.int (2 ^ 1000)) = true) : w.num ≤ moderate := by
  rw [le_iff finite (finite_int _), num_int, Int.cast_pow, ← zpow_natCast] at h
  exact h

theorem Weight.int_or_float {w : Weight} (h : w.IsFinite) :
    (∃ z, w = .int z) ∨ ∃ x, w = .float x := by
  cases w with
  | int z => exact .inl ⟨z, rfl⟩
  | float x => exact .inr ⟨x, rfl⟩
  | undefined i => cases h

namespace Assignment.Problem

variable {n : Nat} {view : View} {edges : Grid Edge n} {c : Costs n}

/-- **A problem** is solved by an assignment of the columns to the rows, or some of its costs are
too large for others. -/
theorem solve_cases (stored : ∀ i j, edges.cell i j ∈ view.edgeList)
    (apart : ∀ {i i' j j'}, i ≠ i' → j ≠ j' → (edges.cell i j).Apart (edges.cell i' j'))
    (weighs : ∀ i j, view.weight (edges.cell i j).toKey = .ok (c.cell i j)) (finite : c.Finite) :
    (∃ m, ∃ σ : Equiv.Perm (Fin n), (solve ⟨n, edges⟩ view).result = .ok m ∧
      m.edges = (List.finRange n).map (fun i => edges.cell i (σ i)) ∧
        m.edges.Pairwise Edge.Apart) ∨
    (solve ⟨n, edges⟩ view).result = .error .weightTooLarge ∧ TooLarge c := by
  by_cases hzero : n = 0
  · subst hzero
    exact .inl ⟨.empty, Equiv.refl _, rfl, rfl, .nil⟩
  have hcosts : costs ⟨n, edges⟩ view = .ok c := Grid.tabulateM_eq_ok_iff.2 weighs
  -- Three places can fail: the first reductions, an adjustment, and the sum of the weights.
  cases he : c.excess? with
  | none =>
    refine .inr ⟨?_, .potentials he⟩
    unfold solve
    rw [if_neg hzero, hcosts]
    dsimp only
    rw [he]
  | some e =>
    obtain ⟨finite', row_tight⟩ := Costs.excess?_spec finite he
    rcases Run.ofExcess_spec finite' row_tight with
      ⟨columns, hcolumns, bijective⟩ | ⟨hstuck, k, e', p, d, few, visits, stuck⟩
    · rw [solve_eq_conclude hzero hcosts he hcolumns]
      cases htotal : sum? ((List.finRange n).map fun i => c.cell i (columns.get i)) with
      | none =>
        refine .inr ⟨?_, .total columns.get htotal⟩
        unfold conclude
        dsimp only
        rw [weights_of_chosen fun i => weighs i (columns.get i)]
        dsimp only
        rw [htotal]
      | some total =>
        obtain ⟨mates, hmates⟩ := conclude_eq stored apart bijective.injective
          (fun i => weighs i (columns.get i)) htotal
        exact .inl ⟨_, Equiv.ofBijective columns.get bijective, hmates, rfl,
          chosen_apart apart bijective.injective⟩
    · refine .inr ⟨?_, .adjustment he few visits stuck⟩
      unfold solve
      rw [if_neg hzero, hcosts]
      dsimp only
      rw [he]
      dsimp only
      rw [hstuck]

end Assignment.Problem

/-- **The result for two partitions that are accepted** is a perfect matching, or it is that a
weight is too large. A perfect matching consists of one stored edge for each vertex of the first
partition and the vertex of the second that a permutation assigns to it, and it covers every vertex
of the partitions once. A weight is too large only if there are both integers and floats among the
weights, and then some weight exceeds `2 ^ 1000` unless the partitions are very large. -/
theorem minimumPerfectMatching_result {view : View} (reachable : view.Reachable)
    {first second : List Vertex} {problem : Assignment.Problem}
    (accepted : Assignment.Problem.ofView view first second = .ok problem) :
    ∃ same : second.length = first.length,
      (∃ m, ∃ σ : Equiv.Perm (Fin first.length),
        (minimumPerfectMatching view first second).result = .ok m ∧
        m.edges.map some = (List.finRange first.length).map
          (fun i => view.edge? (first.get i) (second.get ((σ i).cast same.symm))) ∧
        (∀ e ∈ m.edges, e ∈ view.edgeList) ∧ m.edges.Nodup ∧
        ∀ v, v ∈ first ∨ v ∈ second → ∃! e, e ∈ m.edges ∧ e.touches v = true) ∨
      (minimumPerfectMatching view first second).result = .error .weightTooLarge ∧
        (∃ e ∈ view.edgeList, ∃ z, view.weight e.toKey = .ok (.int z)) ∧
        (∃ e ∈ view.edgeList, ∃ x, view.weight e.toKey = .ok (.float x)) ∧
        (first.length ≤ 2 ^ 20 → ∃ e ∈ view.edgeList, ∃ w, view.weight e.toKey = .ok w ∧
          w.le (.int (2 ^ 1000)) = false) := by
  have wf := reachable.wellFormed
  obtain ⟨same, hfirst, hsecond, disjoint, -, edges, hproblem, hedges⟩ :=
    Assignment.Problem.ofView_eq_ok_iff.1 accepted
  have stored := Assignment.Problem.stored_of_costEdge same wf hedges
  have apart : ∀ {i i' j j'}, i ≠ i' → j ≠ j' → (edges.cell i j).Apart (edges.cell i' j') :=
    Assignment.Problem.apart_of_costEdge same wf hedges hfirst hsecond disjoint
  choose w weighs hcost using fun i j =>
    (Assignment.Problem.costEdge_eq_ok_iff.1 (hedges i j)).2
  have hw : ∀ i j, (Grid.ofFn w).cell i j = w i j := Grid.cell_ofFn w
  have finite : Costs.Finite (Grid.ofFn w) := by
    refine ⟨fun i j => ?_, fun i j => ?_⟩ <;> rw [hw]
    · exact (finite_of_isCost (hcost i j)).1
    · exact (finite_of_isCost (hcost i j)).2
  have hresult : (minimumPerfectMatching view first second).result =
      (Assignment.Problem.solve ⟨first.length, edges⟩ view).result := by
    rw [minimumPerfectMatching, accepted, hproblem]
  rw [hresult]
  refine ⟨same, ?_⟩
  rcases Assignment.Problem.solve_cases stored apart
    (fun i j => (weighs i j).trans (congrArg _ (hw i j).symm)) finite with
    ⟨m, σ, hm, hchosen, hapart⟩ | ⟨herror, tooLarge⟩
  · exact .inl ⟨m, σ, hm, Assignment.Problem.perfect_of_chosen same wf hedges hchosen hapart⟩
  · refine .inr ⟨herror, ?_, ?_, fun few => ?_⟩
    · -- Floats alone are never too large.
      by_contra hall
      refine Assignment.not_tooLarge_of_floats finite (fun i j => ?_) tooLarge
      rw [hw]
      refine (int_or_float (finite_of_isCost (hcost i j)).1).resolve_left ?_
      rintro ⟨z, hz⟩
      exact hall ⟨_, stored i j, z, hz ▸ weighs i j⟩
    · -- Integers alone are combined exactly.
      by_contra hall
      have ints : ∀ i j, ∃ z, w i j = .int z := by
        intro i j
        refine (int_or_float (finite_of_isCost (hcost i j)).1).resolve_right ?_
        rintro ⟨x, hx⟩
        exact hall ⟨_, stored i j, x, hx ▸ weighs i j⟩
      choose cost hints using ints
      obtain ⟨m, -, hm, -⟩ := Assignment.Problem.solve_spec stored apart
        fun i j => (weighs i j).trans (congrArg _ (hints i j))
      cases hm.symm.trans herror
    · by_contra hall
      refine Assignment.not_tooLarge_of_moderate finite (fun i j => ?_) few tooLarge
      rw [hw]
      refine le_moderate (finite_of_isCost (hcost i j)).1 ?_
      rw [← Bool.not_eq_false]
      exact fun h => hall ⟨_, stored i j, _, weighs i j, h⟩

/-- Two workers and two tasks, with integers and floats for weights. -/
def errands : Graph :=
  ((Graph.empty false).update
    [(.tuple [.int 1, .text "a"], .int 3), (.tuple [.int 1, .text "b"], .float 0.5),
      (.tuple [.int 2, .text "a"], .float 2.25), (.tuple [.int 2, .text "b"], .int 1)]).after
    (.empty false)

theorem minimumPerfectMatching_result_errands :
    (View.ofGraph errands).Reachable ∧
      (∃ problem, Assignment.Problem.ofView (.ofGraph errands) [.int 1, .int 2]
        [.text "a", .text "b"] = .ok problem) ∧
      ∃ m, (minimumPerfectMatching (.ofGraph errands) [.int 1, .int 2]
        [.text "a", .text "b"]).result = .ok m ∧ m.edges.Nodup := by
  have reachable : (View.ofGraph errands).Reachable :=
    .graph ((Graph.Reachable.empty false).whole (.update _))
  have accepted : (Assignment.Problem.ofView (.ofGraph errands) [.int 1, .int 2]
      [.text "a", .text "b"]).isOk = true := by decide +kernel
  have moderate : ((View.ofGraph errands).edgeList.all fun e =>
      ((View.ofGraph errands).weight e.toKey).toOption.all (·.le (.int (2 ^ 1000)))) = true := by
    decide +kernel
  cases h : Assignment.Problem.ofView (.ofGraph errands) [.int 1, .int 2]
      [.text "a", .text "b"] with
  | error f =>
    rw [h] at accepted
    cases accepted
  | ok problem =>
    obtain ⟨-, ⟨m, σ, hm, -, -, hnodup, -⟩ | ⟨-, -, -, hlarge⟩⟩ :=
      minimumPerfectMatching_result reachable h
    · exact ⟨reachable, ⟨problem, rfl⟩, m, hm, hnodup⟩
    · obtain ⟨e, he, w, hw, hle⟩ := hlarge (by decide)
      have hmoderate := List.all_eq_true.1 moderate e he
      rw [hw] at hmoderate
      cases hle.symm.trans hmoderate

/-- Two workers and two tasks. Each worker takes half a unit for one of the tasks, and for the
other one more than a float can hold. -/
def lopsided : Graph :=
  ((Graph.empty false).update
    [(.tuple [.int 1, .text "a"], .int (10 ^ 400)), (.tuple [.int 1, .text "b"], .float 0.5),
      (.tuple [.int 2, .text "a"], .float 0.5),
      (.tuple [.int 2, .text "b"], .int (10 ^ 400))]).after (.empty false)

/-- A graph is accepted and has perfect matchings, but none is found. -/
theorem accepted_without_matching : ¬ ∀ (view : View) (first second : List Vertex),
    view.Reachable → (∃ problem, Assignment.Problem.ofView view first second = .ok problem) →
      ∃ m, (minimumPerfectMatching view first second).result = .ok m := by
  intro total
  have reachable : (View.ofGraph lopsided).Reachable :=
    .graph ((Graph.Reachable.empty false).whole (.update _))
  have accepted : (Assignment.Problem.ofView (.ofGraph lopsided) [.int 1, .int 2]
      [.text "a", .text "b"]).isOk = true := by decide +kernel
  have failed : (minimumPerfectMatching (.ofGraph lopsided) [.int 1, .int 2]
      [.text "a", .text "b"]).result.isOk = false := by decide +kernel
  obtain ⟨m, hm⟩ := total (.ofGraph lopsided) [.int 1, .int 2] [.text "a", .text "b"] reachable (by
    cases h : Assignment.Problem.ofView (.ofGraph lopsided) [.int 1, .int 2]
        [.text "a", .text "b"] with
    | ok problem => exact ⟨problem, rfl⟩
    | error f =>
      rw [h] at accepted
      cases accepted)
  rw [hm] at failed
  cases failed

end OptimalMatching
