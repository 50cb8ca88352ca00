import OptimalMatching.Graph.Basic
/-!
# Drawings

What a graph asks of whoever draws it. Vertices are nodes, named by their position and labelled with
their names. Edges are labelled with their weights, unless the weight is one, and edges that are to
stand out are bold. How a label is quoted in the source text of a drawing is left to who writes it.
-/

namespace OptimalMatching

structure Drawing.Node where
  name : String
  label : String

structure Drawing.Line where
  tail : String
  head : String
  label : String
  style : String

/-- A graph as it is to be drawn. -/
structure Drawing where
  directed : Bool
  nodes : List Drawing.Node
  lines : List Drawing.Line

namespace Drawing

/-- The name of the node of a vertex: its position in the order of vertices. -/
def nodeName (g : Graph) (v : Vertex) : String := "node" ++ toString (g.vertices.idxOf v)

/-- The label of an edge: its weight, unless that is one. -/
def edgeLabel? (w : Weight) : Option String := if w.sameNumber .default then some "" else w.text?

def line? (g : Graph) (bold : Key → Bool) (e : Edge) (w : Weight) : Option Line := do
  return {
    tail := nodeName g e.source
    head := nodeName g e.target
    label := ← edgeLabel? w
    style := if bold e.toKey then "bold" else "solid" }

/-- A graph in which some edges stand out; none if a number in a label is too long. -/
def ofGraph? (g : Graph) (bold : Key → Bool) : Option Drawing := do
  let nodes ← g.vertices.mapM fun v => do return ⟨nodeName g v, ← v.label?⟩
  let lines ← g.edges.entries.mapM fun (e, w) => line? g bold e w
  return ⟨g.directed, nodes, lines⟩

/-- The drawing of a graph, if there is something that can draw it. -/
def render (g : Graph) (bold : Key → Bool) (available : Bool) : Except Failure Drawing :=
  if available then
    match ofGraph? g bold with
    | some drawing => .ok drawing
    | none => .error .numberTooLong
  else .error .noRenderer

end Drawing

end OptimalMatching
