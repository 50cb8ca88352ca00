import OptimalMatching.Proofs.Mates
import OptimalMatching.Proofs.Renaming.Graph
import OptimalMatching.Report
/-!
# Views and matchings with renamed vertices

The look-ups that the algorithms make in a graph whose tables agree give the renamed answers, and
the matching of renamed edges is the renamed matching (`Matching.ofEdges_rename`). Its value is the
same, and a renamed vertex has the renamed mate.
-/

namespace OptimalMatching

variable (f : Vertex ↪ Vertex)

/-! ## Looking up -/

theorem Edge.opposite?_rename (e : Edge) (v : Vertex) :
    (e.rename f).opposite? (f v) = (e.opposite? v).map f := by
  unfold opposite?
  simp only [source_rename, target_rename, f.apply_eq_iff_eq]
  split_ifs <;> rfl

namespace Graph

variable {g : Graph} {e : Edge}

/-- An edge of the renamed graph is the renamed one only. -/
theorem mem_edgeList_rename : e.rename f ∈ (g.rename f).edgeList ↔ e ∈ g.edgeList := by
  rw [edgeList_rename, List.mem_map_of_injective (Edge.rename f).injective]

theorem endpoints_rename (h : e ∈ g.edgeList) :
    (g.rename f).endpoints (e.rename f).toKey =
      renameResult f (Prod.map f f) (g.endpoints e.toKey) := by
  rw [endpoints_eq h, endpoints_eq ((mem_edgeList_rename f).2 h)]
  rfl

theorem opposite_rename (h : e ∈ g.edgeList) (v : Vertex) :
    (g.rename f).opposite (e.rename f).toKey (f v) =
      renameResult f f (g.opposite e.toKey v) := by
  unfold opposite
  rw [named_eq h, named_eq ((mem_edgeList_rename f).2 h)]
  simp only [Except.bind, Edge.opposite?_rename]
  cases e.opposite? v <;> rfl

theorem WellFormed.neighborList_rename (h : g.WellFormed) (v : Vertex) :
    (g.rename f).neighborList (f v) = renameResult f (List.map f) (g.neighborList v) := by
  unfold neighborList
  rw [incident_rename]
  refine renameResult_bind f (g.incident v) fun es hes => mapM_rename f fun e he => ?_
  have hv : v ∈ g.vertices := by
    by_contra hv
    rw [h.incident_eq_error hv] at hes
    cases hes
  obtain rfl := Except.ok.inj ((h.incident_eq_ok hv).symm.trans hes)
  exact opposite_rename f (List.mem_filter.1 he).1 v

end Graph

namespace View

variable {view : View} {e : Edge}

/-- The view of the renamed graph that replaces the weights of the renamed keys. -/
def rename (view : View) : View where
  graph := view.graph.rename f
  overrides := view.overrides.rename ⟨renameKey f, renameKey_injective f⟩ id
  simple := view.simple

@[simp] theorem ofGraph_rename (g : Graph) : (ofGraph g).rename f = ofGraph (g.rename f) := rfl

@[simp] theorem vertices_rename : (view.rename f).vertices = view.vertices.map f :=
  Graph.vertices_rename f view.graph

@[simp] theorem edgeList_rename : (view.rename f).edgeList = view.edgeList.map (Edge.rename f) :=
  Graph.edgeList_rename f view.graph

@[simp] theorem edge?_rename (u v : Vertex) :
    (view.rename f).edge? (f u) (f v) = (view.edge? u v).map (Edge.rename f) :=
  Graph.edge?_rename f view.graph u v

theorem weight_rename (h : e ∈ view.edgeList) :
    (view.rename f).weight (e.rename f).toKey = view.weight e.toKey := by
  have hoverride : (view.rename f).overrides.get? (e.rename f).toKey =
      (view.overrides.get? e.toKey).map id :=
    OrderedMap.get?_rename ⟨renameKey f, renameKey_injective f⟩ id view.overrides e.toKey
  unfold weight
  rw [hoverride]
  cases view.overrides.get? e.toKey with
  | some w => rfl
  | none =>
    obtain ⟨a, ha, rfl⟩ := List.mem_map.1 h
    have hget : view.graph.edges.get? a.1 = some a.2 := OrderedMap.get?_eq_some_iff.2 ha
    have hget' := (Graph.get?_edges_rename f view.graph a.1).trans hget
    show (view.graph.rename f).weight (a.1.rename f).toKey = view.graph.weight a.1.toKey
    unfold Graph.weight
    rw [Edge.ofKey?_toKey, Edge.ofKey?_toKey, Option.bind_some, Option.bind_some, hget, hget']

end View

/-! ## Matchings -/

namespace Matching

def rename (m : Matching Edge) : Matching Edge :=
  ⟨m.edges.map (Edge.rename f), m.value, m.mates.rename f f⟩

/-- Whether a vertex is matched does not depend on its name. -/
@[simp] theorem isMatched_rename (m : Matching Edge) (v : Vertex) :
    (m.rename f).isMatched (f v) = m.isMatched v :=
  OrderedMap.contains_rename ..

@[simp] theorem mate?_rename (m : Matching Edge) (v : Vertex) :
    (m.rename f).mate? (f v) = (m.mate? v).map f :=
  OrderedMap.get?_rename ..

theorem pair_rename (mates : OrderedMap Vertex Vertex) (ends : Vertex × Vertex) :
    pair (mates.rename f f) (Prod.map f f ends) =
      renameResult f (·.rename f f) (pair mates ends) := by
  unfold pair
  simp only [Prod.map, OrderedMap.contains_rename]
  split_ifs
  · rfl
  · rw [renameResult, OrderedMap.insert_rename, OrderedMap.insert_rename]

section Edges

variable {endpoints endpoints' : Edge → Except Failure (Vertex × Vertex)} {es : List Edge}

theorem pair_all_rename
    (h : ∀ e ∈ es, endpoints' (e.rename f) = renameResult f (Prod.map f f) (endpoints e))
    (mates : OrderedMap Vertex Vertex) :
    (es.map (Edge.rename f)).foldlM (fun mates e => do pair mates (← endpoints' e))
        (mates.rename f f) =
      renameResult f (·.rename f f)
        (es.foldlM (fun mates e => do pair mates (← endpoints e)) mates) := by
  refine foldlM_rename f (fun mates e he => ?_) mates
  show (endpoints' (e.rename f)).bind _ = renameResult f _ ((endpoints e).bind _)
  rw [h e he]
  exact renameResult_bind f (endpoints e) fun ends _ => pair_rename f mates ends

/-- **The matching of renamed edges** is the renamed matching. -/
theorem ofEdges_rename (value : Weight)
    (h : ∀ e ∈ es, endpoints' (e.rename f) = renameResult f (Prod.map f f) (endpoints e)) :
    ofEdges endpoints' (es.map (Edge.rename f)) value =
      renameResult f (rename f) (ofEdges endpoints es value) := by
  have hdistinct : ∀ e ∈ distinct es, endpoints' (e.rename f) =
      renameResult f (Prod.map f f) (endpoints e) := fun e he => h e (mem_distinct.1 he)
  have hempty : (OrderedMap.empty : OrderedMap Vertex Vertex) = OrderedMap.empty.rename f f := rfl
  unfold ofEdges
  dsimp only
  rw [distinct_rename, hempty, pair_all_rename f hdistinct, ← hempty]
  exact renameResult_bind f _ fun mates _ => rfl

end Edges

end Matching

/-- The outcome with the matching renamed, or the failure. -/
def Outcome.rename (o : Outcome (Matching Edge)) : Outcome (Matching Edge) :=
  ⟨o.reports, renameResult f (Matching.rename f) o.result⟩

end OptimalMatching
