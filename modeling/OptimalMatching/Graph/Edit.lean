import OptimalMatching.Graph.Change
/-!
# Operations on a graph

A graph is used as a map from edges to weights. An operation is given as an `Edit`: the
elementary changes it makes, in order, and its result or the reason why there is none. Changes
made before a failure stay.

* Storing a weight under a key changes the weight of the stored edge that the key names, which
  in an undirected graph may be stored the other way round. If there is none, the key becomes a
  new edge, and its ends become vertices first if they are not yet.
* Removing a vertex first removes the edges that touch it, in order.
* Taking an edge takes the first one; clearing takes all, from the first to the last, and leaves
  the vertices.
-/

namespace OptimalMatching

/-- The changes an operation makes and what comes of it. -/
structure Edit (α : Type) where
  /-- The elementary changes in order. -/
  changes : List Change
  /-- The result, or why there is none. -/
  result : Except Failure α

namespace Edit

variable {α β : Type}

/-- Changes nothing and gives a result. -/
def done (a : α) : Edit α := ⟨[], .ok a⟩

def fail (f : Failure) : Edit α := ⟨[], .error f⟩

/-- Replaces the result of an edit that succeeds. -/
def map (f : α → β) (e : Edit α) : Edit β := ⟨e.changes, e.result.map f⟩

def after (e : Edit α) (g : Graph) : Graph := g.applyAll e.changes

/-- One edit after another, which sees the graph that the first one left and is not reached if
that one fails. -/
def andThen (g : Graph) (first : Edit α) (second : α → Graph → Edit β) : Edit β :=
  match first.result with
  | .error f => ⟨first.changes, .error f⟩
  | .ok a =>
    let next := second a (first.after g)
    ⟨first.changes ++ next.changes, next.result⟩

end Edit

namespace Graph

/-! ## Vertices -/

/-- Adds a vertex and tells whether it is new. -/
def addVertex (g : Graph) (v : Vertex) : Edit Bool :=
  if g.hasVertex v then .done false else ⟨[.addVertex v], .ok true⟩

/-! ## Edges -/

/-- The changes that store a new edge: its ends become vertices if they are not yet. -/
def insertion (g : Graph) (e : Edge) (w : Weight) : List Change :=
  ([e.source, e.target].filter fun v => !g.hasVertex v).map .addVertex ++ [.addEdge e w]

/-- Stores a weight under a key and gives the edge that holds it. -/
def put (g : Graph) (key : Key) (w : Weight) : Edit Edge :=
  match Edge.ofKey? key with
  | none => .fail .malformedKey
  | some e =>
    match g.edge? e.source e.target with
    | some stored => ⟨[.reweigh stored w], .ok stored⟩
    | none => if e.source = e.target then .fail (.loop e) else ⟨g.insertion e w, .ok e⟩

def set (g : Graph) (key : Key) (w : Weight) : Edit Unit := (g.put key w).map fun _ => ()

/-- Adds an edge between two vertices, or gives it a new weight, and gives the edge as it is
stored. -/
def addEdge (g : Graph) (source target : Vertex) (w : Weight) : Edit Edge :=
  g.put (Edge.toKey ⟨source, target⟩) w

/-- Removes the edge that a key names. -/
def delete (g : Graph) (key : Key) : Edit Unit :=
  match g.stored key with
  | .error f => .fail f
  | .ok e => ⟨[.removeEdge e], .ok ()⟩

/-- Removes the edges that keys name, one after the other, until one of them fails. -/
def deleteAll (g : Graph) : List Key → Edit Unit
  | [] => .done ()
  | key :: rest => Edit.andThen g (g.delete key) fun _ g' => g'.deleteAll rest

/-- Removes a vertex, after the edges that touch it. They are listed before the first of them goes,
and each of them is looked up again when its turn comes. -/
def removeVertex (g : Graph) (v : Vertex) : Edit Unit :=
  if g.hasVertex v then
    match g.incident v with
    | .error f => .fail f
    | .ok edges =>
      Edit.andThen g (g.deleteAll (edges.map Edge.toKey)) fun _ _ => ⟨[.removeVertex v], .ok ()⟩
  else .fail (.absent v)

/-! ## Operations of a map -/

/-- The weight of the edge that a key names, or a default if there is none. -/
def weightOr (g : Graph) (key : Key) (default : Option Weight) : Except Failure (Option Weight) :=
  match g.item key with
  | .ok w => .ok (some w)
  | .error (.absent _) => .ok default
  | .error f => .error f

/-- Removes the edge that a key names and gives its weight; with a default, that is the result
if there is no such edge. -/
def pop (g : Graph) (key : Key) (default : Option Weight) : Edit Weight :=
  match g.item key, default with
  | .ok w, _ => (g.delete key).map fun _ => w
  | .error (.absent _), some w => .done w
  | .error f, _ => .fail f

/-- Removes the first edge and gives it with its weight, both of which are looked up by the name of
the edge. -/
def popFirst (g : Graph) : Edit (Edge × Weight) :=
  match g.edgeList with
  | [] => .fail .noEdges
  | e :: _ =>
    match g.item e.toKey with
    | .error f => .fail f
    | .ok w => (g.delete e.toKey).map fun _ => (e, w)

/-- The weight of the edge that a key names; if there is none, it is stored with a default. -/
def setDefault (g : Graph) (key : Key) (default : Weight) : Edit Weight :=
  match g.item key with
  | .ok w => .done w
  | .error (.absent _) => (g.set key default).map fun _ => default
  | .error f => .fail f

/-- Stores weights under keys, one after the other, until one of them fails. -/
def update (g : Graph) : List (Key × Weight) → Edit Unit
  | [] => .done ()
  | (key, w) :: rest => Edit.andThen g (g.set key w) fun _ g' => g'.update rest

/-- Removes all edges from the first to the last. The vertices stay. -/
def clear (g : Graph) : Edit Unit := ⟨g.edgeList.map .removeEdge, .ok ()⟩

/-! ## Whole graphs -/

/-- The entries of a graph, as they can be stored in another one. -/
def entries (g : Graph) : List (Key × Weight) := g.edges.entries.map fun (e, w) => (e.toKey, w)

/-- A graph built by storing weights one after the other. -/
def ofEntries (directed : Bool) (entries : List (Key × Weight)) : Except Failure Graph :=
  let edit := (empty directed).update entries
  edit.result.map fun _ => edit.after (empty directed)

/-- A graph with the same vertices and edges, built anew: first the vertices, then the edges. -/
def copy (g : Graph) : Graph :=
  let withVertices := (empty g.directed).applyAll (g.vertices.map .addVertex)
  (withVertices.update g.entries).after withVertices

end Graph

end OptimalMatching
