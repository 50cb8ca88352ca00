import OptimalMatching.Bags
import OptimalMatching.Graph.Change
/-!
# Cached neighborhoods

A cache of the neighbors of vertices of a graph. The neighborhood of a vertex is built from the
graph when it is first asked for; a neighbor is held once for each edge that leads to it. After
that the cache is kept up to date by the events it is told.

* A new edge makes its ends neighbors. An end whose neighborhood is not cached has it built
  now, with the edge already in it.
* A removed edge takes one neighbor from each end whose neighborhood is cached.
* The neighborhood of a removed vertex is forgotten.

An operation that fails may have changed the cache before.
-/

namespace OptimalMatching

/-- The cached neighborhoods, each in a bag. -/
structure Neighborhoods (B : Bags) where
  cached : OrderedMap Vertex B.Bag

namespace Neighborhoods

variable {B : Bags}

def empty : Neighborhoods B := ⟨.empty⟩

/-- The neighborhood of a vertex, from the cache or from the graph. -/
def lookup (c : Neighborhoods B) (g : Graph) (v : Vertex) :
    Neighborhoods B × Except Failure B.Bag :=
  match c.cached.get? v with
  | some bag => (c, .ok bag)
  | none =>
    match g.neighborList v with
    | .error f => (c, .error f)
    | .ok neighbors =>
      let bag := B.ofList neighbors
      (⟨c.cached.insert v bag⟩, .ok bag)

def neighborSet (c : Neighborhoods B) (g : Graph) (v : Vertex) :
    Neighborhoods B × Except Failure (List Vertex) :=
  (c.lookup g v).map id fun r => r.map B.elements

/-- The neighbors of a vertex, once for each edge that leads to them. -/
def neighborList (c : Neighborhoods B) (g : Graph) (v : Vertex) :
    Neighborhoods B × Except Failure (List Vertex) :=
  (c.lookup g v).map id fun r => r.map B.toList

/-! ## Events -/

/-- A vertex has a new neighbor. -/
def gain (c : Neighborhoods B) (g : Graph) (v neighbor : Vertex) :
    Neighborhoods B × Except Failure Unit :=
  match c.cached.get? v with
  | some bag => (⟨c.cached.insert v (B.add bag neighbor)⟩, .ok ())
  | none => (c.lookup g v).map id fun r => r.map fun _ => ()

/-- A vertex has lost a neighbor. -/
def lose (c : Neighborhoods B) (v neighbor : Vertex) : Neighborhoods B × Except Failure Unit :=
  match c.cached.get? v with
  | none => (c, .ok ())
  | some bag =>
    if B.contains bag neighbor then (⟨c.cached.insert v (B.remove bag neighbor)⟩, .ok ())
    else (c, .error (.notANeighbor neighbor v))

/-- An edge was added, named as it is stored. -/
def edgeAdded (c : Neighborhoods B) (g : Graph) (key : Key) :
    Neighborhoods B × Except Failure Unit :=
  match g.endpoints key with
  | .error f => (c, .error f)
  | .ok (source, target) =>
    match c.gain g source target with
    | (c, .error f) => (c, .error f)
    | (c, .ok ()) => c.gain g target source

def edgeRemoved (c : Neighborhoods B) (key : Key) : Neighborhoods B × Except Failure Unit :=
  match Edge.parts key with
  | .error f => (c, .error f)
  | .ok (source, target) =>
    match c.lose source target with
    | (c, .error f) => (c, .error f)
    | (c, .ok ()) => c.lose target source

def vertexRemoved (c : Neighborhoods B) (v : Vertex) : Neighborhoods B := ⟨c.cached.erase v⟩

/-- Hears of an event in a graph. -/
def receive (c : Neighborhoods B) (g : Graph) : Event → Neighborhoods B × Except Failure Unit
  | .vertexAdded _ => (c, .ok ())
  | .vertexRemoved v => (c.vertexRemoved v, .ok ())
  | .edgeAdded e => c.edgeAdded g e.toKey
  | .edgeRemoved e => c.edgeRemoved e.toKey

end Neighborhoods

end OptimalMatching
