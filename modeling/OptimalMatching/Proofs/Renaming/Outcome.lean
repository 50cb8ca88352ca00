import OptimalMatching.Proofs.Renaming.Assignment
import OptimalMatching.Proofs.Renaming.MaximumMatching
/-!
# No vertex is special

A graph is built, and a matching of it is asked for. When all of this is done once more with other
names for the vertices, everything comes out the same but for the names: the same reports, the same
failures, and the same edges with the same value (`History.matchings_rename`). So no name means
anything to the algorithms, neither nothing nor a negative number.
-/

namespace OptimalMatching

/-- Two outcomes, of which the second is the first one with the vertices renamed. -/
structure Outcome.RenamesTo (f : Vertex ↪ Vertex) (o o' : Outcome (Matching Edge)) : Prop where
  reports : o'.reports = o.reports
  /-- When the first fails, the second fails for the renamed reason. -/
  fails : ∀ {reason}, o.result = .error reason → o'.result = .error (reason.rename f)
  /-- When the first gives a matching, the second gives the renamed one with the same value. The
  same vertices are matched, and with the same mates. -/
  succeeds : ∀ {m}, o.result = .ok m → ∃ m', o'.result = .ok m' ∧
    m'.edges = m.edges.map (Edge.rename f) ∧ m'.value = m.value ∧
      ∀ v, m'.isMatched (f v) = m.isMatched v ∧ m'.mate? (f v) = (m.mate? v).map f

theorem Outcome.renamesTo_rename (f : Vertex ↪ Vertex) (o : Outcome (Matching Edge)) :
    o.RenamesTo f (o.rename f) where
  reports := rfl
  fails h := by
    show renameResult f _ o.result = _
    rw [h]
    rfl
  succeeds {m} h := by
    refine ⟨m.rename f, ?_, rfl, rfl, fun v => ⟨m.isMatched_rename f v, m.mate?_rename f v⟩⟩
    show renameResult f _ o.result = _
    rw [h]
    rfl

/-- **Renaming.** The graph of a history and the graph of the renamed history have the same maximum
matchings and minimum perfect matchings, but for the names of the vertices. -/
theorem History.matchings_rename (f : Vertex ↪ Vertex) (history : History) :
    (maximumMatching (.ofGraph history.graph)).RenamesTo f
        (maximumMatching (.ofGraph (history.rename f).graph)) ∧
      ∀ first second : List Vertex,
        (minimumPerfectMatching (.ofGraph history.graph) first second).RenamesTo f
          (minimumPerfectMatching (.ofGraph (history.rename f).graph) (first.map f)
            (second.map f)) := by
  have wf : (View.ofGraph history.graph).graph.WellFormed := history.reachable.wellFormed
  rw [history.graph_rename, ← View.ofGraph_rename]
  refine ⟨?_, fun first second => ?_⟩
  · rw [maximumMatching_rename f wf]
    exact Outcome.renamesTo_rename f _
  · rw [minimumPerfectMatching_rename f wf]
    exact Outcome.renamesTo_rename f _

/-- Calls one vertex by nothing and another one by a negative number, and the other way round. -/
def oddNames : Vertex ↪ Vertex :=
  ((Equiv.swap (.text "a") .null).trans (Equiv.swap (.text "b") (.int (-1)))).toEmbedding

example :
    let path : History := .operate (.empty false)
      (.update [(.tuple [.text "a", .text "b"], .int 1), (.tuple [.text "b", .text "c"], .int 1),
        (.tuple [.text "c", .text "d"], .int 1)]) 7
    ((maximumMatching (.ofGraph (path.rename oddNames).graph)).result.toOption.map (·.edges)) =
      some [⟨.null, .int (-1)⟩, ⟨.text "c", .text "d"⟩] := by
  decide +kernel

end OptimalMatching
