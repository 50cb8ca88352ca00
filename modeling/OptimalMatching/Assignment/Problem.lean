import OptimalMatching.Assignment.Run
import OptimalMatching.Matching
import OptimalMatching.View
/-!
# Assignment problems

An assignment problem is a complete bipartite graph with two equally large partitions in which
every edge has a finite cost that is not negative. The vertices of the first partition are the
rows of the problem, those of the second its columns. `Problem.ofView` checks all of this;
`Problem.solve` gives a perfect matching of least total weight.

The number of edges is checked before the pairs are, so that once every pair has an edge there
is no room for any other edge.
-/

namespace OptimalMatching.Assignment

/-- An assignment problem: the edge of each cell. -/
structure Problem where
  size : Nat
  edges : Grid Edge size

namespace Problem

/-- The edge between two vertices, if it has a weight that is a cost. -/
def costEdge (view : View) (source target : Vertex) : Except Failure Edge :=
  match view.edge? source target with
  | none => .error (.unfit (.missingEdge source target))
  | some e => do
    let w ← view.weight e.toKey
    if w.isCost then .ok e else .error (.unfit (.badWeight e w))

/-- The assignment problem of a graph with two partitions. -/
def ofView (view : View) (first second : List Vertex) : Except Failure Problem :=
  if h : second.length = first.length then
    if ¬ first.Nodup ∨ ¬ second.Nodup then .error (.unfit .repeatedVertex)
    else if first.any (· ∈ second) then .error (.unfit .sharedVertex)
    else
      let n := first.length
      let count := view.edgeList.length
      if count ≠ n * n then .error (.unfit (.edgeCount (n * n) count))
      else do
        let edges ← Grid.tabulateM fun i j =>
          costEdge view (first.get i) (second.get (j.cast h.symm))
        return ⟨n, edges⟩
  else .error (.unfit .sizesDiffer)

/-- The cost of each cell in a view. -/
def costs (p : Problem) (view : View) : Except Failure (Costs p.size) :=
  Grid.tabulateM fun i j => view.weight (p.edges.cell i j).toKey

/-- The edges that an assignment chooses. -/
def chosen (p : Problem) (columns : Table (Fin p.size) p.size) : List Edge :=
  (List.finRange p.size).map fun i => p.edges.cell i (columns.get i)

/-- The matching of the edges that an assignment chooses, told with its total weight. -/
def conclude (p : Problem) (view : View) (columns : Table (Fin p.size) p.size) :
    Outcome (Matching Edge) :=
  let edges := p.chosen columns
  match edges.mapM fun e => view.weight e.toKey with
  | .error f => ⟨[], .error f⟩
  | .ok weights =>
    match Weight.sum? weights with
    | none => ⟨[], .error .weightTooLarge⟩
    | some total =>
      ⟨[.perfect edges.length total],
        Matching.ofEdges (fun e => view.endpoints e.toKey) edges total⟩

/-- A perfect matching of least total weight. -/
def solve (p : Problem) (view : View) : Outcome (Matching Edge) :=
  if p.size = 0 then ⟨[], .ok .empty⟩
  else
    match p.costs view with
    | .error f => ⟨[], .error f⟩
    | .ok costs =>
      match costs.excess? with
      | none => ⟨[], .error .weightTooLarge⟩
      | some excess =>
        let run := Run.ofExcess excess
        match run.assignment with
        | .error f => ⟨run.reports, .error f⟩
        | .ok columns =>
          let rest := p.conclude view columns
          ⟨run.reports ++ rest.reports, rest.result⟩

end Problem

end OptimalMatching.Assignment

namespace OptimalMatching

/-- A perfect matching of least total weight between two partitions of a graph. -/
def minimumPerfectMatching (view : View) (first second : List Vertex) :
    Outcome (Matching Edge) :=
  match Assignment.Problem.ofView view first second with
  | .error f => ⟨[], .error f⟩
  | .ok problem => problem.solve view

end OptimalMatching
