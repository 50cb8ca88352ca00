import OptimalMatching.Vertex
/-!
# Edges

An edge runs from a source to a target. Callers name an edge by a key, which may be any vertex;
the key of an edge is the tuple of its two ends, and no other vertex is the key of an edge.
-/

namespace OptimalMatching

/-- What a caller offers as the name of an edge. -/
abbrev Key := Vertex

/-- An edge from one vertex to another. -/
@[ext] structure Edge where
  source : Vertex
  target : Vertex
  deriving DecidableEq, Inhabited

namespace Edge

def toKey (e : Edge) : Key := .tuple [e.source, e.target]

/-- The edge that a key names, if the key is a tuple of two vertices. -/
def ofKey? : Key → Option Edge
  | .tuple [source, target] => some ⟨source, target⟩
  | _ => none

@[simp] theorem ofKey?_toKey (e : Edge) : ofKey? e.toKey = some e := rfl

theorem ofKey?_eq_some_iff {key : Key} {e : Edge} : ofKey? key = some e ↔ key = e.toKey := by
  refine ⟨fun h => ?_, fun h => h ▸ ofKey?_toKey e⟩
  unfold ofKey? at h
  split at h
  · obtain rfl := Option.some.inj h
    rfl
  · cases h

theorem ofKey?_eq_none_iff {key : Key} : ofKey? key = none ↔ ∀ e : Edge, key ≠ e.toKey := by
  simp [Option.eq_none_iff_forall_ne_some, ofKey?_eq_some_iff]

/-- The edge in the other direction. -/
def reverse (e : Edge) : Edge := ⟨e.target, e.source⟩

/-- Whether a vertex is an end of an edge. -/
def touches (e : Edge) (v : Vertex) : Bool := e.source = v ∨ e.target = v

/-- The other end of an edge, seen from a vertex that is one of its ends. -/
def opposite? (e : Edge) (v : Vertex) : Option Vertex :=
  if e.source = v then some e.target
  else if e.target = v then some e.source
  else none

def literal? (e : Edge) : Option String := e.toKey.literal?

end Edge

end OptimalMatching
