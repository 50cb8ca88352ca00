import OptimalMatching.Graph.Basic
/-!
# Changes of a graph

Every operation on a graph is a list of elementary changes. `Graph.apply` carries out one of
them in all tables at once, so between two changes the tables agree, and that is where
listeners are told. A listener hears of vertices and edges that come and go, but not of new
weights.
-/

namespace OptimalMatching

/-- An elementary change of a graph. -/
inductive Change where
  /-- A new vertex without edges. -/
  | addVertex (v : Vertex)
  /-- A vertex without edges goes. -/
  | removeVertex (v : Vertex)
  /-- A new edge between vertices of the graph. -/
  | addEdge (e : Edge) (w : Weight)
  /-- A stored edge goes. -/
  | removeEdge (e : Edge)
  /-- A stored edge gets a new weight. -/
  | reweigh (e : Edge) (w : Weight)

/-- What a listener is told. -/
inductive Event where
  | vertexAdded (v : Vertex)
  | vertexRemoved (v : Vertex)
  | edgeAdded (e : Edge)
  | edgeRemoved (e : Edge)
  deriving DecidableEq

/-- What a listener is told about a change, if anything. -/
def Change.event? : Change → Option Event
  | .addVertex v => some (.vertexAdded v)
  | .removeVertex v => some (.vertexRemoved v)
  | .addEdge e _ => some (.edgeAdded e)
  | .removeEdge e => some (.edgeRemoved e)
  | .reweigh _ _ => none

namespace Graph

/-- The table of neighbors with an edge added. -/
def linked (g : Graph) (e : Edge) : OrderedMap Vertex (OrderedMap Vertex Edge) :=
  let forward := g.adjacency.modify e.source (·.insert e.target e)
  if g.directed then forward else forward.modify e.target (·.insert e.source e)

/-- The table of neighbors with an edge taken away. -/
def unlinked (g : Graph) (e : Edge) : OrderedMap Vertex (OrderedMap Vertex Edge) :=
  let forward := g.adjacency.modify e.source (·.erase e.target)
  if g.directed then forward else forward.modify e.target (·.erase e.source)

def apply (g : Graph) : Change → Graph
  | .addVertex v =>
    { g with
      adjacency := g.adjacency.insert v .empty
      incidence := g.incidence.insert v [] }
  | .removeVertex v =>
    { g with
      adjacency := g.adjacency.erase v
      incidence := g.incidence.erase v }
  | .addEdge e w =>
    { g with
      edges := g.edges.insert e w
      adjacency := g.linked e
      incidence := (g.incidence.modify e.source (· ++ [e])).modify e.target (· ++ [e]) }
  | .removeEdge e =>
    { g with
      edges := g.edges.erase e
      adjacency := g.unlinked e
      incidence := (g.incidence.modify e.source (·.erase e)).modify e.target (·.erase e) }
  | .reweigh e w => { g with edges := g.edges.modify e fun _ => w }

def applyAll (g : Graph) (changes : List Change) : Graph := changes.foldl apply g

@[simp] theorem applyAll_nil (g : Graph) : g.applyAll [] = g := rfl

@[simp] theorem applyAll_cons (g : Graph) (c : Change) (cs : List Change) :
    g.applyAll (c :: cs) = (g.apply c).applyAll cs := rfl

theorem applyAll_append (g : Graph) (cs cs' : List Change) :
    g.applyAll (cs ++ cs') = (g.applyAll cs).applyAll cs' := by
  simp [applyAll]

end Graph

end OptimalMatching
