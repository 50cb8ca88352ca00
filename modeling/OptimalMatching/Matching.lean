import OptimalMatching.Failure
import OptimalMatching.OrderedMap
/-!
# Matchings

A matching is a set of edges of which no two have a common end, together with a value: the total
weight of the edges or their number. It knows the mate of every vertex that it covers.

How an edge is represented is left open; `ofEdges` is told how to find the two ends of one.
-/

namespace OptimalMatching

/-- A set of edges without common ends. -/
structure Matching (ε : Type) where
  /-- The edges, each once. -/
  edges : List ε
  /-- The total weight or the number of the edges. -/
  value : Weight
  /-- The mate of each vertex that is covered. -/
  mates : OrderedMap Vertex Vertex
  deriving Inhabited

namespace Matching

variable {ε : Type} [DecidableEq ε]

/-- Makes the two ends of an edge mates, unless one of them has a mate. -/
def pair (mates : OrderedMap Vertex Vertex) (ends : Vertex × Vertex) :
    Except Failure (OrderedMap Vertex Vertex) :=
  if mates.contains ends.1 ∨ mates.contains ends.2 then .error .sharedEnd
  else .ok ((mates.insert ends.1 ends.2).insert ends.2 ends.1)

/-- The matching of a list of edges, in which an edge may be repeated. -/
def ofEdges (endpoints : ε → Except Failure (Vertex × Vertex)) (edges : List ε)
    (value : Weight) : Except Failure (Matching ε) := do
  let edges := distinct edges
  let mates ← edges.foldlM (fun mates e => do pair mates (← endpoints e)) .empty
  return ⟨edges, value, mates⟩

def empty : Matching ε := ⟨[], .int 0, .empty⟩

def size (m : Matching ε) : Nat := m.edges.length

def contains (m : Matching ε) (e : ε) : Bool := e ∈ m.edges

def isMatched (m : Matching ε) (v : Vertex) : Bool := m.mates.contains v

/-- The other end of the edge that covers a vertex. -/
def mate? (m : Matching ε) (v : Vertex) : Option Vertex := m.mates.get? v

/-- Whether two matchings have the same edges and equal values. -/
def same (m m' : Matching ε) : Bool :=
  m.edges.all (· ∈ m'.edges) && m'.edges.all (· ∈ m.edges) && m.value.sameNumber m'.value

/-- The matching with its edges represented in another way. -/
def map {ε' : Type} (f : ε → ε') (m : Matching ε) : Matching ε' :=
  ⟨m.edges.map f, m.value, m.mates⟩

/-- The text of a matching whose edges are keys. -/
def literal (m : Matching Key) : Except Failure String := Failure.ofText do
  let edges ← m.edges.mapM Vertex.literal?
  let shown :=
    if edges.isEmpty then "set()" else "\x7b" ++ String.intercalate ", " edges ++ "\x7d"
  return "Matching(" ++ shown ++ ", " ++ (← m.value.text?) ++ ")"

end Matching

end OptimalMatching
