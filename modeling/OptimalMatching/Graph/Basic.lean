import OptimalMatching.Failure
import OptimalMatching.OrderedMap
/-!
# Graphs

A graph keeps its edges with their weights in order of insertion, and two indexes over them:
for each vertex the edge that leads to each neighbor, and for each vertex the edges that touch
it. In an undirected graph an edge is found from both of its ends, whichever way round it was
inserted; in a directed graph only from its source.

`edge?` finds the stored edge between two vertices, and the look-ups by key are built on it.

**Equality.** Two graphs are equal when they are of the same kind, have the same vertices, and store
the same edges, in the same orientation, with the same weights; the order of insertion does not
matter. A graph can also be compared with a plain table of weights, which has no vertices of its
own. Weights are the same when they are equal as numbers, or when they are one and the same
occurrence of something that is not a number.
-/

namespace OptimalMatching

/-- Whether two tables hold the same weights under the same keys. -/
def sameTable {α : Type} [DecidableEq α] (a b : OrderedMap α Weight) : Bool :=
  a.size = b.size && a.entries.all fun (key, w) =>
    match b.get? key with
    | some w' => w.identical w'
    | none => false

/-- A graph with weighted edges. -/
structure Graph where
  /-- Whether an edge and its reverse are different edges. -/
  directed : Bool
  /-- The edges with their weights. -/
  edges : OrderedMap Edge Weight
  /-- For each vertex, the edge that leads to each neighbor. -/
  adjacency : OrderedMap Vertex (OrderedMap Vertex Edge)
  /-- For each vertex, the edges that touch it. -/
  incidence : OrderedMap Vertex (List Edge)
  deriving Inhabited

namespace Graph

def empty (directed : Bool) : Graph where
  directed := directed
  edges := .empty
  adjacency := .empty
  incidence := .empty

def vertices (g : Graph) : List Vertex := g.adjacency.keys

def edgeList (g : Graph) : List Edge := g.edges.keys

def hasVertex (g : Graph) (v : Vertex) : Bool := g.adjacency.contains v

/-- The stored edge from one vertex to another, or between them in an undirected graph. -/
def edge? (g : Graph) (source target : Vertex) : Option Edge :=
  (g.adjacency.get? source).bind fun neighbors => neighbors.get? target

/-- The stored edge that a key names. -/
def stored (g : Graph) (key : Key) : Except Failure Edge :=
  match Edge.ofKey? key with
  | none => .error .malformedKey
  | some e =>
    match g.edge? e.source e.target with
    | none => .error (.absent key)
    | some stored => .ok stored

/-- Whether a key names a stored edge. -/
def contains (g : Graph) (key : Key) : Bool :=
  match g.stored key with
  | .ok _ => true
  | .error _ => false

/-! ## Look-ups by the stored name

The operations below take an edge as it is stored: in an undirected graph, too, the two
orientations are told apart. -/

/-- The edge of a key that is the name of a stored edge. -/
def named (g : Graph) (key : Key) : Except Failure Edge :=
  match Edge.ofKey? key with
  | none => .error (.absent key)
  | some e => if g.edges.contains e then .ok e else .error (.absent key)

def endpoints (g : Graph) (key : Key) : Except Failure (Vertex × Vertex) :=
  (g.named key).map fun e => (e.source, e.target)

def weight (g : Graph) (key : Key) : Except Failure Weight :=
  match (Edge.ofKey? key).bind g.edges.get? with
  | none => .error (.absent key)
  | some w => .ok w

/-- The weight of the edge that a key names, in either orientation in an undirected graph. -/
def item (g : Graph) (key : Key) : Except Failure Weight :=
  (g.stored key).bind fun e => g.weight e.toKey

/-- The edges that touch a vertex. -/
def incident (g : Graph) (v : Vertex) : Except Failure (List Edge) :=
  match g.incidence.get? v with
  | none => .error (.absent v)
  | some edges => .ok edges

/-- The end of a stored edge that is not the given vertex. -/
def opposite (g : Graph) (key : Key) (v : Vertex) : Except Failure Vertex :=
  (g.named key).bind fun e =>
    match e.opposite? v with
    | none => .error (.notAnEnd v e)
    | some u => .ok u

/-- The neighbors of a vertex, once for each edge that leads to them. -/
def neighborList (g : Graph) (v : Vertex) : Except Failure (List Vertex) :=
  (g.incident v).bind fun edges => edges.mapM fun e => g.opposite e.toKey v

/-! ## Text -/

/-- A graph is written as its kind with its edges and weights in order. Vertices without edges are
not shown. -/
def literal (g : Graph) : Except Failure String := Failure.ofText do
  let entries ← g.edges.entries.mapM fun (e, w) => do
    return (← e.literal?) ++ ": " ++ (← w.text?)
  return (if g.directed then "DiGraph" else "Graph")
    ++ "(\x7b" ++ String.intercalate ", " entries ++ "\x7d)"

/-! ## Equality -/

/-- The edges and weights of a graph as a plain table. -/
def table (g : Graph) : OrderedMap Key Weight :=
  .ofList (g.edges.entries.map fun (e, w) => (e.toKey, w))

/-- Whether a graph stores exactly the entries of a table. -/
def equalsTable (g : Graph) (t : OrderedMap Key Weight) : Bool := sameTable g.table t

/-- Whether two graphs have the same vertices, in any order. -/
def sameVertices (g h : Graph) : Bool :=
  g.vertices.all h.hasVertex && h.vertices.all g.hasVertex

def equals (g h : Graph) : Bool :=
  g.directed = h.directed && sameTable g.edges h.edges && g.sameVertices h

end Graph

/-! ## The parts of a key -/

/-- The two parts of a key, where a pair of vertices is expected: the elements of a tuple of two,
or the characters of a text of two. Anything else does not have two parts. -/
def Edge.parts : Key → Except Failure (Vertex × Vertex)
  | .tuple items => two items
  | .text s => two (s.toList.map fun c => .text (String.singleton c))
  | key => .error (.noParts key)
where
  /-- The two elements of a list of two. -/
  two : List Vertex → Except Failure (Vertex × Vertex)
  | [a, b] => .ok (a, b)
  | items => .error (if items.length < 2 then .tooFewParts items.length else .tooManyParts)

end OptimalMatching
