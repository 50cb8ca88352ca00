import OptimalMatching.Graph.Edit
/-!
# Views of a graph

The algorithms read a graph through a view, which may give some keys weights of its own. A view
also says whether the graph is simple, that is, free of parallel edges; the graphs of this
library are. A view of a view passes on what it does not replace.
-/

namespace OptimalMatching

/-- A graph as it is read, with some weights replaced. -/
structure View where
  graph : Graph
  /-- The weights that take the place of those of the graph. -/
  overrides : OrderedMap Key Weight
  /-- Whether there are no parallel edges. -/
  simple : Bool
  deriving Inhabited

namespace View

def ofGraph (g : Graph) : View := ⟨g, .empty, true⟩

/-- A view with further weights replaced. -/
def overlay (v : View) (weights : List (Key × Weight)) : View :=
  { v with overrides := v.overrides.insertAll weights }

/-- A view that is taken for one with parallel edges. -/
def withParallelEdges (v : View) : View := { v with simple := false }

/-- The same view of another graph. -/
def onto (v : View) (g : Graph) : View := { v with graph := g }

/-- Whether an edge and its reverse are different edges. -/
def directed (v : View) : Bool := v.graph.directed

def vertices (v : View) : List Vertex := v.graph.vertices

def edgeList (v : View) : List Edge := v.graph.edgeList

def edge? (v : View) (source target : Vertex) : Option Edge := v.graph.edge? source target

def endpoints (v : View) (key : Key) : Except Failure (Vertex × Vertex) := v.graph.endpoints key

def incident (v : View) (vertex : Vertex) : Except Failure (List Edge) := v.graph.incident vertex

/-- The weight of a key: the one that the view gives it, or that of the stored edge. -/
def weight (v : View) (key : Key) : Except Failure Weight :=
  match v.overrides.get? key with
  | some w => .ok w
  | none => v.graph.weight key

def opposite (v : View) (key : Key) (vertex : Vertex) : Except Failure Vertex :=
  v.graph.opposite key vertex

def neighborList (v : View) (vertex : Vertex) : Except Failure (List Vertex) :=
  v.graph.neighborList vertex

end View

end OptimalMatching
