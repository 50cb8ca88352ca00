import OptimalMatching.Blossom.Run
import OptimalMatching.Matching
import OptimalMatching.Report
import OptimalMatching.Table
import OptimalMatching.View
/-!
# Maximum matchings of graphs

The algorithm works on the positions of the vertices in their order. `neighborsOf` lists the
neighbors of each position, and `maximumMatching` runs the algorithm and finds the stored edges of
the pairs it has matched. The value of the matching is the number of its edges; weights play no
part.
-/

namespace OptimalMatching.Blossom

/-- Whether a maximum matching can be asked of a graph: it must be undirected and simple. -/
def checkKind (view : View) : Except Failure Unit :=
  if view.directed then .error .directedGraph
  else if !view.simple then .error .parallelEdges
  else .ok ()

/-- The position of a vertex in a list. -/
def position? (vertices : List Vertex) (v : Vertex) : Option (Fin vertices.length) :=
  (List.finRange vertices.length).find? fun i => vertices.get i = v

/-- The neighbors of each vertex of a graph, by position, in the order of the edges that touch
it. -/
def neighborsOf (view : View) : Except Failure (Neighbors view.vertices.length) :=
  Table.tabulateM fun i => do
    let neighbors ← view.neighborList (view.vertices.get i)
    neighbors.mapM fun u =>
      match position? view.vertices u with
      | some j => .ok j
      | none => .error (.absent u)

/-- The stored edges of the pairs that a run has matched. -/
def Run.storedEdges (view : View) (r : Run view.vertices.length) : Except Failure (List Edge) :=
  r.pairs.mapM fun (i, j) =>
    match view.edge? (view.vertices.get i) (view.vertices.get j) with
    | some e => .ok e
    -- without an edge there is nothing of which to tell the ends
    | none => .error (.absent .null)

/-- What a run tells about itself. -/
def Run.reports {n : Nat} (r : Run n) : List Report :=
  r.rounds.flatMap (fun round =>
    round.finding.contractions.map fun c => .contracted c.stem.val) ++ [.augmented r.augmentations]

/-- A maximum matching of a graph of the right kind. -/
def compute (view : View) : Outcome (Matching Edge) :=
  if view.vertices.isEmpty then ⟨[], .ok .empty⟩
  else
    match neighborsOf view with
    | .error f => ⟨[], .error f⟩
    | .ok neighbors =>
      match Run.ofNeighbors? neighbors with
      | none => ⟨[], .error .brokenTree⟩
      | some run =>
        let size := run.pairs.length
        ⟨run.reports ++ [.maximum size view.vertices.length], do
          let edges ← run.storedEdges view
          Matching.ofEdges (fun e => view.endpoints e.toKey) edges (.int size)⟩

end OptimalMatching.Blossom

namespace OptimalMatching

/-- A maximum matching of an undirected simple graph. -/
def maximumMatching (view : View) : Outcome (Matching Edge) :=
  match Blossom.checkKind view with
  | .error f => ⟨[], .error f⟩
  | .ok () => Blossom.compute view

end OptimalMatching
