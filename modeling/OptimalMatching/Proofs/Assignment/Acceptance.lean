import Mathlib.Data.Fintype.Prod
import OptimalMatching.Proofs.Assignment.Problem
/-!
# Which graphs are assignment problems

A graph with two partitions is accepted as an assignment problem exactly when it is complete
bipartite and its weights are costs (`CompleteBipartite`). Otherwise it is refused by one of the
checks, as an invalid input unless the message would name a number that is too long to be written
(`Problem.ofView_accepts_iff`).

**No other edge.** The check looks up the edge of every pair, and it counts the edges. The edges of
two pairs are different, because an edge has one end in each partition. So the pairs have as many
edges as there are pairs, and there are no others exactly when the graph has no more edges than
that (`length_eq_iff`).
-/

namespace OptimalMatching

/-- **A cost** is a finite number that is not negative. -/
theorem Weight.isCost_iff {w : Weight} :
    w.isCost = true ↔ ∃ m q, w.number? = some (.finite m q) ∧ 0 ≤ m := by
  have hinfinity : infinity.number? = some (.infinite false) := rfl
  have hzero : (Weight.int 0).number? = some (.finite 0 0) := rfl
  unfold isCost le lt compare?
  rw [hinfinity, hzero]
  cases w.number? with
  | none => simp
  | some x =>
    cases x with
    | finite m q =>
      have hpos : 0 < (twoTo (q - min 0 q).toNat : Int) :=
        Int.natCast_pos.2 (Nat.pow_pos (Nat.succ_pos 1))
      have hsign : 0 ≤ m * (twoTo (q - min 0 q).toNat : Int) ↔ 0 ≤ m :=
        Int.mul_nonneg_iff_of_pos_right hpos
      simp only [Exact.compare, Int.zero_mul, Int.compare_eq_lt, Int.compare_eq_eq, Option.some_inj,
        Exact.finite.injEq, Bool.and_eq_true, decide_eq_true_eq]
      rw [← Int.le_iff_lt_or_eq, hsign]
      simp
    | infinite negative => cases negative <;> simp [Exact.compare]

namespace Unfit

variable {s t : Vertex} {e : Edge} {w : Weight}

theorem isSome_message?_missingEdge (hs : s.literal?.isSome = true)
    (ht : t.literal?.isSome = true) : (missingEdge s t).message?.isSome = true := by
  obtain ⟨source, hs⟩ := Option.isSome_iff_exists.1 hs
  obtain ⟨target, ht⟩ := Option.isSome_iff_exists.1 ht
  simp [message?, hs, ht]

theorem isSome_message?_badWeight (hs : e.source.literal?.isSome = true)
    (ht : e.target.literal?.isSome = true) (hw : w.text?.isSome = true) :
    (badWeight e w).message?.isSome = true := by
  obtain ⟨source, hs⟩ := Option.isSome_iff_exists.1 hs
  obtain ⟨target, ht⟩ := Option.isSome_iff_exists.1 ht
  obtain ⟨weight, hw⟩ := Option.isSome_iff_exists.1 hw
  simp [message?, Edge.literal?, Edge.toKey, Vertex.literal?, Vertex.literals?, hs, ht, hw]

end Unfit

/-- A graph that does not fit is refused as an invalid input, or as a wrong value when there is
something that cannot be told about it. -/
theorem Failure.kind_unfit (reason : Unfit) :
    (Failure.unfit reason).kind = .invalidInput ∧ reason.message?.isSome = true ∨
      (Failure.unfit reason).kind = .wrongValue ∧
        (Failure.unfit reason).message = Text.tooLong := by
  cases h : reason.message? with
  | none => exact .inr (by simp [kind, message, message?, h])
  | some text => exact .inl (by simp [kind, h])

namespace Graph.WellFormed

variable {g : Graph} {n : Nat} {s t : Fin n → Vertex} {edge : Fin n → Fin n → Edge}

/-- **Counting the edges.** Where every pair has an edge, there are as many edges as pairs exactly
when every edge is that of a pair. -/
theorem length_eq_iff (hs : s.Injective) (ht : t.Injective) (apart : ∀ i j, s i ≠ t j)
    (stored : ∀ i j, edge i j ∈ g.edgeList) (joins : ∀ i j, g.Joins (edge i j) (s i) (t j)) :
    g.edgeList.length = n * n ↔ ∀ e ∈ g.edgeList, ∃ i j, edge i j = e := by
  -- An edge tells its two ends apart, as each of them is in one partition only.
  have hedge : Function.Injective fun p : Fin n × Fin n => edge p.1 p.2 := by
    intro p p' (heq : edge p.1 p.2 = edge p'.1 p'.2)
    have htouch : ∀ v, v = s p.1 ∨ v = t p.2 ↔ v = s p'.1 ∨ v = t p'.2 := fun v => by
      rw [← touches_iff_of_joins (joins p.1 p.2), heq, touches_iff_of_joins (joins p'.1 p'.2)]
    have hrow := ((htouch _).1 (.inl rfl)).resolve_right (apart _ _)
    have hcolumn := ((htouch _).1 (.inr rfl)).resolve_left (apart _ _).symm
    exact Prod.ext (hs hrow) (ht hcolumn)
  let cells : Finset Edge := Finset.univ.image fun p : Fin n × Fin n => edge p.1 p.2
  have hcells : cells.card = n * n := by
    rw [Finset.card_image_of_injective _ hedge, Finset.card_univ, Fintype.card_prod,
      Fintype.card_fin]
  have hsubset : cells ⊆ g.edgeList.toFinset := by
    intro e he
    obtain ⟨p, -, rfl⟩ := Finset.mem_image.1 he
    exact List.mem_toFinset.2 (stored p.1 p.2)
  have hlength : g.edgeList.toFinset.card = g.edgeList.length :=
    List.toFinset_card_of_nodup (nodup_edgeList g)
  constructor
  · intro hcount e he
    -- There is no room for another edge.
    have hall : cells = g.edgeList.toFinset :=
      Finset.eq_of_subset_of_card_le hsubset (by rw [hlength, hcount, hcells])
    rw [← List.mem_toFinset, ← hall] at he
    obtain ⟨p, -, hp⟩ := Finset.mem_image.1 he
    exact ⟨p.1, p.2, hp⟩
  · intro hall
    have hsame : g.edgeList.toFinset = cells := by
      refine Finset.Subset.antisymm (fun e he => ?_) hsubset
      obtain ⟨i, j, hij⟩ := hall e (List.mem_toFinset.1 he)
      exact Finset.mem_image.2 ⟨(i, j), Finset.mem_univ _, hij⟩
    rw [← hlength, hsame, hcells]

end Graph.WellFormed

namespace Assignment

/-- A graph is complete bipartite, between two partitions of equal size, and all of its weights are
costs. -/
structure CompleteBipartite (view : View) (first second : List Vertex) : Prop where
  sameSize : second.length = first.length
  /-- All vertices of the partitions are different. -/
  nodup : (first ++ second).Nodup
  /-- In a directed graph the edge leads from the first partition to the second. -/
  joined : ∀ s ∈ first, ∀ t ∈ second, ∃! e, e ∈ view.edgeList ∧ view.graph.Joins e s t
  nothingElse : ∀ e ∈ view.edgeList, ∃ s ∈ first, ∃ t ∈ second, view.graph.Joins e s t
  /-- A weight is a finite number that is not negative. -/
  costs : ∀ e ∈ view.edgeList, ∃ w m q,
    view.weight e.toKey = .ok w ∧ w.number? = some (.finite m q) ∧ 0 ≤ m

/-- The vertices and weights that a refusal may have to name can be written: no number in them is
too long. -/
structure Legible (view : View) (first second : List Vertex) : Prop where
  vertices : ∀ v ∈ first ++ second, v.literal?.isSome = true
  weights : ∀ e ∈ view.edgeList, ∀ w, view.weight e.toKey = .ok w → w.text?.isSome = true

namespace Problem

variable {view : View} {first second : List Vertex} {problem : Problem}

/-- A pair that gives no edge has none, or one whose weight is no cost. -/
theorem unfit_of_costEdge (wf : view.graph.WellFormed) {s t : Vertex} {f : Failure}
    (h : costEdge view s t = .error f) :
    f = .unfit (.missingEdge s t) ∨ ∃ e w, e ∈ view.edgeList ∧ view.graph.Joins e s t ∧
      view.weight e.toKey = .ok w ∧ f = .unfit (.badWeight e w) := by
  unfold costEdge at h
  split at h
  · exact .inl (Except.error.inj h).symm
  · next e he =>
    obtain ⟨stored, joins⟩ := wf.edge?_iff.1 he
    obtain ⟨w, hw⟩ := view.exists_weight stored
    simp only [hw, bind, Except.bind] at h
    split_ifs at h
    exact .inr ⟨e, w, stored, joins, hw, (Except.error.inj h).symm⟩

theorem isSome_message?_of_costEdge (legible : Legible view first second)
    (wf : view.graph.WellFormed) {s t : Vertex} (hs : s ∈ first) (ht : t ∈ second) {f : Failure}
    (h : costEdge view s t = .error f) : f.message?.isSome = true := by
  have hs := legible.vertices s (List.mem_append_left _ hs)
  have ht := legible.vertices t (List.mem_append_right _ ht)
  obtain rfl | ⟨e, w, stored, joins, hw, rfl⟩ := unfit_of_costEdge wf h
  · exact Unfit.isSome_message?_missingEdge hs ht
  · have ends : ∀ v, e.touches v = true → v.literal?.isSome = true := fun v hv =>
      ((Graph.touches_iff_of_joins joins).1 hv).elim (fun heq => heq ▸ hs) fun heq => heq ▸ ht
    exact Unfit.isSome_message?_badWeight (ends _ (Graph.touches_iff.2 (.inl rfl)))
      (ends _ (Graph.touches_iff.2 (.inr rfl))) (legible.weights e stored w hw)

/-- **A refusal** is always for not fitting, and can be told if what it has to name can be. -/
theorem unfit_of_ofView (wf : view.graph.WellFormed) {f : Failure}
    (h : ofView view first second = .error f) :
    (∃ reason, f = .unfit reason) ∧
      (Legible view first second → f.message?.isSome = true) := by
  unfold ofView at h
  dsimp only at h
  split_ifs at h
  · cases h
    exact ⟨⟨_, rfl⟩, fun _ => rfl⟩
  · cases h
    exact ⟨⟨_, rfl⟩, fun _ => rfl⟩
  · cases h
    exact ⟨⟨_, rfl⟩, fun _ => rfl⟩
  · simp only [bind, Except.bind, pure, Except.pure] at h
    split at h
    · next f' hf =>
      -- Only the refusal of a pair names something, so only that may be impossible to tell.
      obtain ⟨i, j, hij⟩ := Grid.exists_of_tabulateM_eq_error hf
      cases h
      refine ⟨?_, fun legible => isSome_message?_of_costEdge legible wf (List.get_mem first i)
        (List.get_mem second _) hij⟩
      obtain rfl | ⟨_, _, -, -, -, rfl⟩ := unfit_of_costEdge wf hij <;> exact ⟨_, rfl⟩
    · cases h
  · cases h
    exact ⟨⟨_, rfl⟩, fun _ => rfl⟩

theorem completeBipartite_of_ok (wf : view.graph.WellFormed)
    (h : ofView view first second = .ok problem) : CompleteBipartite view first second := by
  obtain ⟨same, hfirst, hsecond, disjoint, hcount, edges, -, hedges⟩ := ofView_eq_ok_iff.1 h
  have hfound : ∀ i j, edges.cell i j ∈ view.edgeList ∧
      view.graph.Joins (edges.cell i j) (first.get i) (second.get (j.cast same.symm)) :=
    fun i j => wf.edge?_iff.1 (edge?_of_costEdge (hedges i j))
  -- By counting, the edges that were looked up for the pairs are all there are.
  have hall : ∀ e ∈ view.edgeList, ∃ i j, edges.cell i j = e :=
    (Graph.WellFormed.length_eq_iff (s := first.get)
      (t := fun j => second.get (j.cast same.symm))
      (List.nodup_iff_injective_get.1 hfirst)
      ((List.nodup_iff_injective_get.1 hsecond).comp (Fin.cast_injective _))
      (fun i j heq => disjoint _ (List.get_mem first i) (heq ▸ List.get_mem second _))
      (fun i j => (hfound i j).1) fun i j => (hfound i j).2).1 hcount
  constructor
  case sameSize => exact same
  case nodup =>
    exact List.Nodup.append hfirst hsecond fun v hv hv' => disjoint v hv hv'
  case joined =>
    intro s hs t ht
    obtain ⟨i, rfl⟩ := List.mem_iff_get.1 hs
    obtain ⟨j, rfl⟩ := List.mem_iff_get.1 ht
    have hij := edge?_of_costEdge (hedges i (j.cast same))
    refine ⟨_, wf.edge?_iff.1 hij, fun e he => ?_⟩
    exact Option.some.inj ((wf.edge?_iff.2 he).symm.trans hij)
  case nothingElse =>
    intro e he
    obtain ⟨i, j, rfl⟩ := hall e he
    exact ⟨_, List.get_mem first i, _, List.get_mem second _, (hfound i j).2⟩
  case costs =>
    intro e he
    obtain ⟨i, j, rfl⟩ := hall e he
    obtain ⟨-, w, hw, hcost⟩ := costEdge_eq_ok_iff.1 (hedges i j)
    obtain ⟨m, q, hnumber, hm⟩ := Weight.isCost_iff.1 hcost
    exact ⟨w, m, q, hw, hnumber, hm⟩

theorem exists_ok_of_completeBipartite (wf : view.graph.WellFormed)
    (h : CompleteBipartite view first second) :
    ∃ problem, ofView view first second = .ok problem := by
  obtain ⟨same, nodup, joined, nothingElse, costs⟩ := h
  obtain ⟨hfirst, hsecond, disjoint⟩ := List.nodup_append'.1 nodup
  have hedge : ∀ i j : Fin first.length, ∃ e, e ∈ view.edgeList ∧
      view.graph.Joins e (first.get i) (second.get (j.cast same.symm)) := fun i j =>
    (joined _ (List.get_mem first i) _ (List.get_mem second _)).exists
  choose edge stored joins using hedge
  have hall : ∀ e ∈ view.edgeList, ∃ i j, edge i j = e := by
    intro e he
    obtain ⟨s, hs, t, ht, hj⟩ := nothingElse e he
    obtain ⟨i, rfl⟩ := List.mem_iff_get.1 hs
    obtain ⟨j, rfl⟩ := List.mem_iff_get.1 ht
    exact ⟨i, j.cast same, (joined _ hs _ ht).unique ⟨stored _ _, joins _ _⟩ ⟨he, hj⟩⟩
  have hcount : view.edgeList.length = first.length * first.length :=
    (Graph.WellFormed.length_eq_iff (s := first.get)
      (t := fun j => second.get (j.cast same.symm))
      (List.nodup_iff_injective_get.1 hfirst)
      ((List.nodup_iff_injective_get.1 hsecond).comp (Fin.cast_injective _))
      (fun i j heq => disjoint (List.get_mem first i) (heq ▸ List.get_mem second _))
      stored joins).2 hall
  refine ⟨⟨first.length, .ofFn edge⟩, ofView_eq_ok_iff.2 ⟨same, hfirst, hsecond,
    fun v hv hv' => disjoint hv hv', hcount, .ofFn edge, rfl, fun i j => ?_⟩⟩
  obtain ⟨w, m, q, hw, hnumber, hm⟩ := costs _ (stored i j)
  rw [Grid.cell_ofFn]
  exact costEdge_eq_ok_iff.2 ⟨wf.edge?_iff.2 ⟨stored i j, joins i j⟩, w, hw,
    Weight.isCost_iff.2 ⟨m, q, hnumber, hm⟩⟩

/-- **What is accepted as an assignment problem**: the complete bipartite graphs whose weights are
costs, and nothing else. All others are refused because they do not fit, as an invalid input if the
vertices and weights that the refusal has to name can be written. If not, the refusal may be one
for a wrong value, which tells of a number that is too long. -/
theorem ofView_accepts_iff (h : view.Reachable) (first second : List Vertex) :
    ((∃ problem, ofView view first second = .ok problem) ↔ CompleteBipartite view first second) ∧
    ∀ f, ofView view first second = .error f →
      (∃ reason, f = .unfit reason) ∧
      (f.kind = .invalidInput ∨ f.kind = .wrongValue ∧ f.message = Text.tooLong) ∧
      (Legible view first second → f.kind = .invalidInput) := by
  refine ⟨⟨fun ⟨_, hok⟩ => completeBipartite_of_ok h.wellFormed hok,
    exists_ok_of_completeBipartite h.wellFormed⟩, fun f hf => ?_⟩
  obtain ⟨⟨reason, rfl⟩, htold⟩ := unfit_of_ofView h.wellFormed hf
  refine ⟨⟨reason, rfl⟩, (Failure.kind_unfit reason).imp_left And.left, fun legible => ?_⟩
  exact if_pos (htold legible)

/-- The wages in a view in which nobody knows what the first worker takes for the first task. -/
def unknownWage : View := (View.ofGraph wages).overlay [(.tuple [.int 1, .text "a"], .undefined 0)]

theorem ofView_accepts_iff_wages :
    (View.ofGraph wages).Reachable ∧ unknownWage.Reachable ∧
      CompleteBipartite (.ofGraph wages) [.int 1, .int 2] [.text "a", .text "b"] ∧
      ¬ CompleteBipartite unknownWage [.int 1, .int 2] [.text "a", .text "b"] ∧
      Legible unknownWage [.int 1, .int 2] [.text "a", .text "b"] ∧
      ∃ f, ofView unknownWage [.int 1, .int 2] [.text "a", .text "b"] = .error f ∧
        f.kind = .invalidInput := by
  have graph : (View.ofGraph wages).Reachable := .graph ((Graph.Reachable.empty false).whole _)
  have overlaid : unknownWage.Reachable := .overlay _ graph
  have accepted :
      (ofView (.ofGraph wages) [.int 1, .int 2] [.text "a", .text "b"]).isOk = true := by
    decide +kernel
  have refused : (ofView unknownWage [.int 1, .int 2] [.text "a", .text "b"]).isOk = false := by
    decide +kernel
  have legible : Legible unknownWage [.int 1, .int 2] [.text "a", .text "b"] := by
    refine ⟨by decide +kernel, fun e he w hw => ?_⟩
    have hall : (unknownWage.edgeList.all fun e =>
        ((unknownWage.weight e.toKey).toOption.all fun w => w.text?.isSome)) = true := by
      decide +kernel
    have htext := List.all_eq_true.1 hall e he
    rwa [hw] at htext
  obtain ⟨hiff, -⟩ := ofView_accepts_iff graph [.int 1, .int 2] [.text "a", .text "b"]
  obtain ⟨hiff', hrefused⟩ := ofView_accepts_iff overlaid [.int 1, .int 2] [.text "a", .text "b"]
  refine ⟨graph, overlaid, hiff.1 ?_, fun hcomplete => ?_, legible, ?_⟩
  · cases h : ofView (.ofGraph wages) [.int 1, .int 2] [.text "a", .text "b"] with
    | ok problem => exact ⟨problem, rfl⟩
    | error f =>
      rw [h] at accepted
      cases accepted
  · obtain ⟨problem, h⟩ := hiff'.2 hcomplete
    rw [h] at refused
    cases refused
  · cases h : ofView unknownWage [.int 1, .int 2] [.text "a", .text "b"] with
    | ok problem =>
      rw [h] at refused
      cases refused
    | error f => exact ⟨f, rfl, (hrefused f h).2.2 legible⟩

/-- One worker and one task, with a negative wage that is one digit too long to be written. -/
def debt : Graph :=
  ((Graph.empty false).update
    [(.tuple [.text "s", .text "t"], .int (-(10 ^ Text.digitLimit : Nat)))]).after (.empty false)

/-- A graph is refused, but not as an invalid input. -/
theorem refused_as_wrong_value : ¬ ∀ (view : View) (first second : List Vertex),
    view.Reachable → ¬ CompleteBipartite view first second →
      ∃ f, ofView view first second = .error f ∧ f.kind = .invalidInput := by
  intro invalid
  have reachable : (View.ofGraph debt).Reachable :=
    .graph ((Graph.Reachable.empty false).whole (.update _))
  have refused : (match ofView (.ofGraph debt) [.text "s"] [.text "t"] with
      | .ok _ => false
      | .error f => decide (f.kind = .wrongValue)) = true := by decide +kernel
  have incomplete : ¬ CompleteBipartite (.ofGraph debt) [.text "s"] [.text "t"] := by
    intro complete
    obtain ⟨problem, hok⟩ := exists_ok_of_completeBipartite reachable.wellFormed complete
    rw [hok] at refused
    cases refused
  obtain ⟨f, hf, hkind⟩ := invalid (.ofGraph debt) [.text "s"] [.text "t"] reachable incomplete
  rw [hf] at refused
  exact absurd (hkind.symm.trans (of_decide_eq_true refused)) (by decide)

end Problem

end Assignment

end OptimalMatching
