import OptimalMatching.Edge
import OptimalMatching.Weight.Text
/-!
# Failures

Why an operation gives no result. Each constructor is one cause. `Failure.message` is what the user
reads, and `Failure.kind` is by what a caller tells failures apart.

**Messages that cannot be written.** A message may name a number that is too long to be written.
Then the user reads that instead. Where the message is made when the failure is raised, the failure
takes another kind as well: a graph that does not fit is refused with a wrong value, and not as
an invalid input.
-/

namespace OptimalMatching

/-- Why a graph with two partitions is not an assignment problem. -/
inductive Unfit where
  /-- The partitions are not equally large. -/
  | sizesDiffer
  /-- A partition lists a vertex twice. -/
  | repeatedVertex
  /-- A vertex is in both partitions. -/
  | sharedVertex
  /-- The graph does not have as many edges as there are pairs. -/
  | edgeCount (expected found : Nat)
  /-- A pair has no edge. -/
  | missingEdge (source target : Vertex)
  /-- An edge has a weight that is no cost. -/
  | badWeight (edge : Edge) (weight : Weight)

/-- Why an operation gives no result. -/
inductive Failure where
  /-- The key of an edge to be stored or looked up is not a pair. -/
  | malformedKey
  /-- The two ends of a new edge are the same vertex. -/
  | loop (edge : Edge)
  /-- There is no edge or no vertex of this name. -/
  | absent (name : Vertex)
  /-- There is no edge to take. -/
  | noEdges
  /-- The vertex is not an end of the edge. -/
  | notAnEnd (vertex : Vertex) (edge : Edge)
  /-- A vertex lost a neighbor that it did not have. -/
  | notANeighbor (neighbor vertex : Vertex)
  /-- The listener is not registered. -/
  | notListening
  /-- Nothing or a number was given where two vertices were expected. -/
  | noParts (name : Vertex)
  /-- A tuple or a text with fewer than two parts was given where two vertices were expected. -/
  | tooFewParts (count : Nat)
  /-- A tuple or a text with more than two parts was given where two vertices were expected. -/
  | tooManyParts
  /-- Two edges of a matching have a common end. -/
  | sharedEnd
  /-- The graph with its partitions is not an assignment problem. -/
  | unfit (reason : Unfit)
  /-- A maximum matching was asked of a directed graph. -/
  | directedGraph
  /-- A maximum matching was asked of a graph that may have parallel edges. -/
  | parallelEdges
  /-- An integer weight is too large to be combined with a float. -/
  | weightTooLarge
  /-- The lines reached from the exposed rows do not form a minimum cover. -/
  | notACover
  /-- Every cell is covered, so there is no least uncovered one. -/
  | nothingUncovered
  /-- The potentials were adjusted more often than finite excesses allow. -/
  | unbounded
  /-- An alternating tree lacks a link that leads to its root. -/
  | brokenTree
  /-- Nothing is installed that could draw a graph. -/
  | noRenderer
  /-- A graph was put where things are told apart for good, but a graph changes. -/
  | changeable (directed : Bool)
  /-- A number in a text is too long to be written. -/
  | numberTooLong

namespace Unfit

def message? : Unfit → Option String
  | .sizesDiffer => "Graph supplied isn't complete bipartite with equally sized partitions!"
  | .repeatedVertex => "The vertices of a partition must be distinct"
  | .sharedVertex => "The partitions must not share vertices"
  | .edgeCount expected found =>
    "Graph supplied isn't complete bipartite: expected " ++ toString expected
      ++ " edges but got " ++ toString found
  | .missingEdge source target => do
    return "There is no edge between " ++ (← source.literal?) ++ " and " ++ (← target.literal?)
  | .badWeight edge weight => do
    return "The edge " ++ (← edge.literal?) ++ " must have a finite non-negative weight, got "
      ++ (← weight.text?)

end Unfit

namespace Failure

/-- What there is to read about a failure, if it can be written. -/
def message? : Failure → Option String
  | .malformedKey => "The edge must be a 2-tuple"
  | .loop edge => do return "Loops are not allowed: " ++ (← edge.literal?)
  | .absent name => name.literal?
  | .noEdges => ""
  | .notAnEnd vertex edge => do
    return (← vertex.literal?) ++ " is not an end point of " ++ (← edge.literal?)
  | .notANeighbor neighbor vertex => do
    return "Attempting to remove the neighbor " ++ (← neighbor.literal?) ++ " of "
      ++ (← vertex.literal?) ++ " that was not present"
  | .notListening => "list.remove(x): x not in list"
  | .noParts (.int _) => "cannot unpack non-iterable int object"
  | .noParts _ => "cannot unpack non-iterable NoneType object"
  | .tooFewParts count =>
    "not enough values to unpack (expected 2, got " ++ toString count ++ ")"
  | .tooManyParts => "too many values to unpack (expected 2)"
  | .sharedEnd => "The edges of a matching must be vertex-disjoint"
  | .unfit reason => reason.message?
  | .directedGraph => "Only undirected graphs are supported"
  | .parallelEdges => "Only simple graphs are supported"
  | .weightTooLarge => "int too large to convert to float"
  | .notACover => ""
  | .nothingUncovered => "min() arg is an empty sequence"
  | .unbounded => ""
  | .brokenTree => ""
  | .noRenderer => "The graphviz package is required to draw the graph."
  | .changeable directed =>
    "unhashable type: '" ++ (if directed then "DiGraph" else "Graph") ++ "'"
  | .numberTooLong => Text.tooLong

/-- What the user reads about a failure. -/
def message (f : Failure) : String := f.message?.getD Text.tooLong

/-- What a caller knows of a failure without its cause. -/
inductive Kind where
  | wrongType
  | wrongValue
  | missing
  | invalidInput
  | wrongGraph
  | overflow
  | brokenAssertion
  | unavailable
  /-- The computation does not come to an end, or reads what is not there. -/
  | stuck
  deriving DecidableEq

def kind : Failure → Kind
  | .malformedKey | .noParts _ | .changeable _ => .wrongType
  | .absent _ | .noEdges => .missing
  | .loop _ | .notAnEnd _ _ | .notANeighbor _ _ | .notListening | .tooFewParts _
  | .tooManyParts | .sharedEnd | .nothingUncovered | .numberTooLong => .wrongValue
  -- the message is made before the failure is raised
  | .unfit reason => if reason.message?.isSome then .invalidInput else .wrongValue
  | .directedGraph | .parallelEdges => .wrongGraph
  | .weightTooLarge => .overflow
  | .notACover => .brokenAssertion
  | .noRenderer => .unavailable
  | .unbounded | .brokenTree => .stuck

/-- A text, unless a number in it is too long. -/
def ofText : Option String → Except Failure String
  | some s => .ok s
  | none => .error .numberTooLong

end Failure

end OptimalMatching
