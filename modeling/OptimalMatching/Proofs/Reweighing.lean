import OptimalMatching.Proofs.Blossom.MaximumMatching
import OptimalMatching.Proofs.Renaming.Assignment
import OptimalMatching.Proofs.Workspace.Copying
/-!
# Other weights for the same edges

A view may give other weights to the edges of a graph, and a graph may get other weights for the
edges that it stores. To the algorithms this is the same.

**What is read.** The algorithms look up vertices, edges, ends and neighbors in the graph, and they
ask the view for the weights of stored edges only, under the names by which they are stored. So two
views of graphs that store the same edges have the same outcome if they give each of these the same
weight (`View.Alike`), however they come by it.

**What is stored.** A new weight for a stored edge changes this weight and nothing else: all orders
stay as they are (`Graph.Reweighed`). So a copy in which the weights of the view have been stored,
in any order, is read like the view (`overlay_is_reweighed_copy`).
-/

namespace OptimalMatching

/-! ## What is read -/

/-- Two views that differ at most in how they come by the weights of the stored edges. -/
structure View.Alike (view view' : View) : Prop where
  directed : view.directed = view'.directed
  simple : view.simple = view'.simple
  adjacency : view.graph.adjacency = view'.graph.adjacency
  incidence : view.graph.incidence = view'.graph.incidence
  edges : view.edgeList = view'.edgeList
  weight : ∀ e ∈ view.edgeList, view.weight e.toKey = view'.weight e.toKey

namespace View.Alike

variable {view view' : View}

theorem edge? (h : view.Alike view') (u v : Vertex) : view.edge? u v = view'.edge? u v := by
  unfold View.edge? Graph.edge?
  rw [h.adjacency]

theorem named (h : view.Alike view') (key : Key) :
    view.graph.named key = view'.graph.named key := by
  have hcontains : ∀ e, view.graph.edges.contains e = view'.graph.edges.contains e := fun e => by
    have hkeys : view.graph.edges.keys = view'.graph.edges.keys := h.edges
    rw [Bool.eq_iff_iff, OrderedMap.contains_iff, OrderedMap.contains_iff, hkeys]
  unfold Graph.named
  simp only [hcontains]

theorem endpoints (h : view.Alike view') (key : Key) :
    view.endpoints key = view'.endpoints key := by
  unfold View.endpoints Graph.endpoints
  rw [h.named]

theorem neighborList (h : view.Alike view') (v : Vertex) :
    view.neighborList v = view'.neighborList v := by
  unfold View.neighborList Graph.neighborList Graph.incident Graph.opposite
  simp only [h.incidence, h.named]

end View.Alike

/-! ## Maximum matchings -/

namespace Blossom

variable {view view' : View}

theorem compute_congr (h : view.Alike view') (wf : view.graph.WellFormed)
    (undirected : view.directed = false) : compute view = compute view' := by
  have hvertices : view.vertices = view'.vertices := congrArg OrderedMap.keys h.adjacency
  have hedge := h.edge?
  have hends := h.endpoints
  have hlist := h.neighborList
  by_cases hempty : view.vertices = []
  · have hempty' : view'.vertices = [] := hvertices ▸ hempty
    exact (if_pos (by simp [hempty])).trans (if_pos (by simp [hempty'])).symm
  · have hempty' : view'.vertices ≠ [] := hvertices ▸ hempty
    obtain ⟨neighbors, hneighbors, represents⟩ := neighborsOf_spec wf undirected
    obtain ⟨r, hr, -, -, hstored, hlength, mates, hm⟩ :=
      Run.ofNeighbors?_edges wf undirected represents
    -- Positions are numbered by the table of neighbors, so this table is made one.
    obtain ⟨⟨d, edges, adjacency, incidence⟩, overrides, simple⟩ := view
    obtain ⟨⟨d', edges', adjacency', incidence'⟩, overrides', simple'⟩ := view'
    obtain rfl : adjacency = adjacency' := h.adjacency
    have hneighbors' : neighborsOf ⟨⟨d', edges', adjacency, incidence'⟩, overrides', simple'⟩ =
        .ok neighbors := by
      refine Table.tabulateM_eq_ok_iff.2 fun i =>
        Eq.trans ?_ (Table.tabulateM_eq_ok_iff.1 hneighbors i)
      rw [hlist]
      refine bind_congr fun us => congrArg (List.mapM · us) (funext fun u => ?_)
      dsimp only [View.vertices, Graph.vertices]
      cases position? adjacency.keys u <;> rfl
    have hedges : Run.edges ⟨⟨d, edges, adjacency, incidence⟩, overrides, simple⟩ r =
        Run.edges ⟨⟨d', edges', adjacency, incidence'⟩, overrides', simple'⟩ r := by
      unfold Run.edges
      simp only [hedge]
      rfl
    have hstored' : Run.storedEdges ⟨⟨d', edges', adjacency, incidence'⟩, overrides', simple'⟩ r =
        .ok (Run.edges ⟨⟨d', edges', adjacency, incidence'⟩, overrides', simple'⟩ r) := by
      rw [← hedges, ← hstored]
      unfold Run.storedEdges
      simp only [hedge]
      rfl
    have hm' := hm
    simp only [hends, hedges] at hm'
    rw [compute_eq hempty hneighbors hr hstored hlength hm,
      compute_eq hempty' hneighbors' hr hstored' (hedges ▸ hlength) hm', hedges]
    rfl

end Blossom

/-- **A maximum matching** does not depend on how the view comes by its weights. -/
theorem maximumMatching_congr {view view' : View} (h : view.Alike view')
    (wf : view.graph.WellFormed) : maximumMatching view = maximumMatching view' := by
  have hkind : Blossom.checkKind view = Blossom.checkKind view' := by
    unfold Blossom.checkKind
    rw [h.directed, h.simple]
  unfold maximumMatching
  rw [← hkind]
  cases hdirected : view.directed with
  | true =>
    rw [Blossom.checkKind, if_pos hdirected]
  | false =>
    rw [Blossom.checkKind, if_neg (by simp [hdirected])]
    split_ifs
    · rfl
    · exact Blossom.compute_congr h wf hdirected

/-! ## Minimum perfect matchings -/

namespace Assignment.Problem

variable {view view' : View}

/-- Whether an edge has a cost is asked of stored edges only. -/
theorem costEdge_congr (h : view.Alike view') (wf : view.graph.WellFormed) (s t : Vertex) :
    costEdge view s t = costEdge view' s t := by
  unfold costEdge
  rw [← h.edge?]
  cases hedge : view.edge? s t with
  | none => rfl
  | some e =>
    dsimp only
    rw [h.weight e (wf.edge?_iff.1 hedge).1]

theorem ofView_congr (h : view.Alike view') (wf : view.graph.WellFormed)
    (first second : List Vertex) : ofView view first second = ofView view' first second := by
  unfold ofView
  simp only [h.edges, costEdge_congr h wf]

theorem conclude_congr {p : Problem} (h : view.Alike view')
    (stored : ∀ i j, p.edges.cell i j ∈ view.edgeList) (columns : Table (Fin p.size) p.size) :
    p.conclude view columns = p.conclude view' columns := by
  have hweights : (p.chosen columns).mapM (fun e => view.weight e.toKey) =
      (p.chosen columns).mapM fun e => view'.weight e.toKey := by
    unfold chosen
    rw [List.mapM_map, List.mapM_map]
    exact congrArg (List.mapM · _) (funext fun i => h.weight _ (stored i _))
  unfold conclude
  simp only [hweights, h.endpoints]

theorem solve_congr {p : Problem} (h : view.Alike view')
    (stored : ∀ i j, p.edges.cell i j ∈ view.edgeList) : p.solve view = p.solve view' := by
  have hcosts : p.costs view = p.costs view' :=
    congrArg Grid.tabulateM (funext fun i => funext fun j => h.weight _ (stored i j))
  unfold solve
  simp only [hcosts, conclude_congr h stored]

end Assignment.Problem

/-- **A minimum perfect matching** does not depend on how the view comes by its weights. -/
theorem minimumPerfectMatching_congr {view view' : View} (h : view.Alike view')
    (wf : view.graph.WellFormed) (first second : List Vertex) :
    minimumPerfectMatching view first second = minimumPerfectMatching view' first second := by
  unfold minimumPerfectMatching
  rw [← Assignment.Problem.ofView_congr h wf]
  cases hp : Assignment.Problem.ofView view first second with
  | error reason => rfl
  | ok problem =>
    obtain ⟨same, -, -, -, -, edges, rfl, hedges⟩ := Assignment.Problem.ofView_eq_ok_iff.1 hp
    exact Assignment.Problem.solve_congr h
      (Assignment.Problem.stored_of_costEdge same wf hedges)

/-! ## What is stored -/

/-- A graph in which some of the stored edges have got other weights. -/
structure Graph.Reweighed (g g' : Graph) (given : Edge → Option Weight) : Prop where
  directed : g'.directed = g.directed
  adjacency : g'.adjacency = g.adjacency
  incidence : g'.incidence = g.incidence
  edges : g'.edgeList = g.edgeList
  weight : ∀ e ∈ g.edgeList, g'.edges.get? e = (given e).or (g.edges.get? e)

/-- The entries of a map for some edges, under the names of the edges. -/
def replacements (W : OrderedMap Key Weight) (es : List Edge) : List (Key × Weight) :=
  es.filterMap fun e => (W.get? e.toKey).map (e.toKey, ·)

namespace Graph

variable {g g' g'' : Graph} {given given' : Edge → Option Weight} {e : Edge}

theorem Reweighed.refl (g : Graph) : g.Reweighed g fun _ => none :=
  ⟨rfl, rfl, rfl, rfl, fun _ _ => rfl⟩

/-- Of two weights that are stored one after the other, the later one stays. -/
theorem Reweighed.trans (first : g.Reweighed g' given) (next : g'.Reweighed g'' given') :
    g.Reweighed g'' fun e => (given' e).or (given e) where
  directed := next.directed.trans first.directed
  adjacency := next.adjacency.trans first.adjacency
  incidence := next.incidence.trans first.incidence
  edges := next.edges.trans first.edges
  weight e he := by
    rw [next.weight e (first.edges ▸ he), first.weight e he, Option.or_assoc]

theorem Reweighed.congr (h : g.Reweighed g' given)
    (same : ∀ e ∈ g.edgeList, given e = given' e) : g.Reweighed g' given' :=
  { h with weight := fun e he => by rw [h.weight e he, same e he] }

namespace WellFormed

/-- **A weight for a stored edge** under its name changes this weight and nothing else. -/
theorem set_stored (wf : g.WellFormed) (he : e ∈ g.edgeList) (w : Weight) :
    (g.set e.toKey w).result = .ok () ∧ ((g.set e.toKey w).after g).WellFormed ∧
      g.Reweighed ((g.set e.toKey w).after g) fun f => if f = e then some w else none := by
  have hset : g.set e.toKey w = ⟨[.reweigh e w], .ok ()⟩ := by
    unfold set
    rw [show g.put e.toKey w = ⟨[.reweigh e w], .ok e⟩ from wf.put_of_joins he (.inl rfl) w]
    rfl
  rw [hset]
  refine ⟨rfl, wf.reweigh, rfl, rfl, rfl, edgeList_reweigh, fun f hf => ?_⟩
  show (g.edges.modify e fun _ => w).get? f = _
  rw [OrderedMap.get?_modify]
  by_cases hfe : f = e
  · subst hfe
    obtain ⟨w', hw'⟩ := Option.ne_none_iff_exists'.1 fun hnone =>
      OrderedMap.get?_eq_none_iff.1 hnone hf
    simp [hw']
  · simp [hfe, Ne.symm hfe]

/-- **Weights for stored edges**, one after the other, change these weights and nothing else. -/
theorem update_stored (wf : g.WellFormed) (W : OrderedMap Key Weight) {es : List Edge}
    (stored : ∀ e ∈ es, e ∈ g.edgeList) :
    (g.update (replacements W es)).result = .ok () ∧
      g.Reweighed ((g.update (replacements W es)).after g) fun e =>
        if e ∈ es then W.get? e.toKey else none := by
  induction es generalizing g with
  | nil => exact ⟨rfl, .refl g⟩
  | cons e es ih =>
    have he := stored e List.mem_cons_self
    have hes : ∀ f ∈ es, f ∈ g.edgeList := fun f hf => stored f (List.mem_cons_of_mem _ hf)
    cases hw : W.get? e.toKey with
    | none =>
      -- The map has nothing for the edge, and nothing is stored.
      have hskip : replacements W (e :: es) = replacements W es :=
        List.filterMap_cons_none (by rw [hw]; rfl)
      obtain ⟨hresult, hafter⟩ := ih wf hes
      rw [hskip]
      refine ⟨hresult, hafter.congr fun f _ => ?_⟩
      by_cases hfe : f = e
      · subst hfe
        simp [hw]
      · simp [hfe]
    | some w =>
      have hcons : replacements W (e :: es) = (e.toKey, w) :: replacements W es :=
        List.filterMap_cons_some (by rw [hw]; rfl)
      obtain ⟨hset, wf', hfirst⟩ := wf.set_stored he w
      obtain ⟨hresult, hnext⟩ := ih wf' fun f hf => hfirst.edges ▸ hes f hf
      rw [hcons, update_cons (a := (e.toKey, w)) hset]
      refine ⟨hresult, ?_⟩
      show g.Reweighed (g.applyAll (_ ++ _)) _
      rw [applyAll_append]
      refine (hfirst.trans hnext).congr fun f _ => ?_
      by_cases hfe : f = e
      · subst hfe
        by_cases hf : f ∈ es <;> simp [hf, hw]
      · simp [hfe]

end WellFormed

theorem weight_overlay (g : Graph) (W : List (Key × Weight)) (key : Key) :
    ((View.ofGraph g).overlay W).weight key =
      match (OrderedMap.ofList W).get? key with
      | some w => .ok w
      | none => g.weight key :=
  rfl

/-- A view with a map of weights is alike to the graph in which these weights have been stored. -/
theorem Reweighed.alike {W : List (Key × Weight)}
    (h : g.Reweighed g' fun e => (OrderedMap.ofList W).get? e.toKey) :
    ((View.ofGraph g).overlay W).Alike (.ofGraph g') where
  directed := h.directed.symm
  simple := rfl
  adjacency := h.adjacency.symm
  incidence := h.incidence.symm
  edges := h.edges.symm
  weight e he := by
    show _ = g'.weight e.toKey
    rw [weight_overlay, Graph.weight, Graph.weight, Edge.ofKey?_toKey, Option.bind_some,
      Option.bind_some, h.weight e he]
    cases (OrderedMap.ofList W).get? e.toKey <;> rfl

end Graph

/-- **A view is read like a copy** in which its weights have been stored. The entries of the map for
stored edges are stored in a copy of the graph, in any order, and none of them is refused. Then both
kinds of matching come to the same as on the view: the same edges, value and reports, or the same
failure. What else is in the map is of no account: maps that have the same for all stored edges make
views with the same outcomes. -/
theorem overlay_is_reweighed_copy {g : Graph} (h : g.Reachable) (W : List (Key × Weight))
    {es : List Edge} (all : ∀ e, e ∈ es ↔ e ∈ g.edgeList) :
    let view := (View.ofGraph g).overlay W
    let edit := g.copy.update (replacements (.ofList W) es)
    edit.result = .ok () ∧
    (∀ first second, minimumPerfectMatching view first second =
      minimumPerfectMatching (.ofGraph (edit.after g.copy)) first second) ∧
    maximumMatching view = maximumMatching (.ofGraph (edit.after g.copy)) ∧
    ∀ W' : List (Key × Weight), (∀ e ∈ g.edgeList,
        (OrderedMap.ofList W').get? e.toKey = (OrderedMap.ofList W).get? e.toKey) →
      (∀ first second, minimumPerfectMatching ((View.ofGraph g).overlay W') first second =
        minimumPerfectMatching view first second) ∧
      maximumMatching ((View.ofGraph g).overlay W') = maximumMatching view := by
  intro view edit
  have wf : view.graph.WellFormed := h.wellFormed
  obtain ⟨hresult, hafter⟩ := h.wellFormed.update_stored (.ofList W) fun e he => (all e).1 he
  have hcopy : edit = g.update (replacements (.ofList W) es) :=
    congrArg (Graph.update · _) h.copy_eq
  have halike : view.Alike (.ofGraph (edit.after g.copy)) := by
    rw [hcopy, h.copy_eq]
    exact (hafter.congr fun e he => if_pos ((all e).2 he)).alike
  refine ⟨by rw [hcopy, hresult], minimumPerfectMatching_congr halike wf,
    maximumMatching_congr halike wf, fun W' same => ?_⟩
  have halike' : ((View.ofGraph g).overlay W').Alike view :=
    ⟨rfl, rfl, rfl, rfl, rfl, fun e he => by
      rw [Graph.weight_overlay, Graph.weight_overlay, same e he]⟩
  exact ⟨minimumPerfectMatching_congr halike' h.wellFormed,
    maximumMatching_congr halike' h.wellFormed⟩

/-- Other wages: the first worker takes less for one task, and the second one takes more. Two keys
name edges the other way round than they are stored, and one names nothing. -/
def otherWages : List (Key × Weight) :=
  [(.tuple [.int 1, .text "a"], .int 2), (.tuple [.text "a", .int 2], .int 9),
    (.tuple [.int 2, .text "a"], .int 0), (.tuple [.text "b", .int 1], .int 0), (.null, .int 0)]

theorem overlay_is_reweighed_copy_wages :
    let view := (View.ofGraph wages).overlay otherWages
    let edit := wages.copy.update (replacements (.ofList otherWages) wages.edgeList.reverse)
    wages.Reachable ∧ (∀ e, e ∈ wages.edgeList.reverse ↔ e ∈ wages.edgeList) ∧
      (∀ e ∈ wages.edgeList, (OrderedMap.ofList (otherWages.take 2)).get? e.toKey =
        (OrderedMap.ofList otherWages).get? e.toKey) ∧
      edit.result = .ok () ∧
      (minimumPerfectMatching (.ofGraph (edit.after wages.copy)) [.int 1, .int 2]
        [.text "a", .text "b"]).result.toOption.map Matching.edges =
          some [⟨.int 1, .text "a"⟩, ⟨.int 2, .text "b"⟩] ∧
      maximumMatching view = maximumMatching (.ofGraph (edit.after wages.copy)) ∧
      maximumMatching ((View.ofGraph wages).overlay (otherWages.take 2)) =
        maximumMatching view := by
  intro view edit
  have reachable : wages.Reachable := (Graph.Reachable.empty false).whole _
  have all : ∀ e, e ∈ wages.edgeList.reverse ↔ e ∈ wages.edgeList := fun e => List.mem_reverse
  have same : ∀ e ∈ wages.edgeList, (OrderedMap.ofList (otherWages.take 2)).get? e.toKey =
      (OrderedMap.ofList otherWages).get? e.toKey := by
    have hlist : wages.edgeList = [⟨.int 1, .text "a"⟩, ⟨.int 1, .text "b"⟩, ⟨.text "a", .int 2⟩,
      ⟨.int 2, .text "b"⟩] := by decide +kernel
    rw [hlist]
    simp only [List.forall_mem_cons]
    exact ⟨rfl, rfl, rfl, rfl, List.forall_mem_nil _⟩
  obtain ⟨hresult, hminimum, hmaximum, helse⟩ :=
    overlay_is_reweighed_copy reachable otherWages all
  refine ⟨reachable, all, same, hresult, ?_, hmaximum, (helse _ same).2⟩
  rw [← hminimum]
  decide +kernel

end OptimalMatching
