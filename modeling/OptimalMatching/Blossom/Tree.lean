import OptimalMatching.Table
/-!
# Alternating trees

A matching of the vertices `0` to `n - 1` is kept as the mate of each vertex. An alternating tree
grows from an exposed root: its paths leave a vertex along an edge outside the matching and come
back to the next one along an edge of the matching. The vertices from which the tree goes on
growing are its outer vertices, the root first; the mate of an outer vertex other than the root
was reached from its parent.

An edge between two outer vertices closes an odd cycle, a blossom. It is contracted: from then on
all its vertices have the same base, the vertex of the blossom nearest to the root, and all of
them are outer. Walking up the tree therefore means going from a vertex to its base, from
there to the mate of the base, and on to the parent of the mate.

Each operation that walks up the tree gives nothing if a link is missing or the walk does not
come to an end; a tree that has grown from a matching lacks no link.
-/

namespace OptimalMatching.Blossom

variable {n : Nat}

/-- The neighbors of each vertex. -/
abbrev Neighbors (n : Nat) := Table (List (Fin n)) n

/-- The mate of each vertex; an exposed vertex has none. -/
abbrev Mates (n : Nat) := Table (Option (Fin n)) n

/-- An alternating tree. -/
structure Tree (n : Nat) where
  /-- The vertex from which a vertex was reached. -/
  parent : Table (Option (Fin n)) n
  /-- The base of the blossom of a vertex, or the vertex itself outside of blossoms. -/
  base : Table (Fin n) n
  /-- Whether the vertex is outer. -/
  outer : Table Bool n
  /-- The outer vertices from which the tree is still to grow. -/
  queue : List (Fin n)

namespace Tree

def ofRoot (root : Fin n) : Tree n where
  parent := .replicate n none
  base := .ofFn id
  outer := (Table.replicate n false).put root true
  queue := []

/-- The vertex two steps up from a vertex: the parent of its mate. -/
def up? (t : Tree n) (mates : Mates n) (v : Fin n) : Option (Fin n) :=
  (mates.get v).bind fun m => t.parent.get m

/-- Whether a vertex is known as outer by its links: it is the root, or its mate has a
parent. -/
def isOuter (t : Tree n) (mates : Mates n) (root v : Fin n) : Bool :=
  v = root || (t.up? mates v).isSome

/-! ## Growing -/

/-- Makes `v` the parent of a vertex that has none. -/
def attach (t : Tree n) (v child : Fin n) : Tree n :=
  { t with parent := t.parent.put child (some v) }

/-- Makes a vertex outer and lets the tree grow from it later. -/
def enqueue (t : Tree n) (v : Fin n) : Tree n :=
  { t with outer := t.outer.put v true, queue := t.queue ++ [v] }

/-! ## Contracting a blossom -/

/-- The bases on the way up from a vertex, from its own base to that of the root. -/
def chain? (t : Tree n) (mates : Mates n) : (steps : Nat) → Fin n → Option (List (Fin n))
  | 0, _ => none
  | steps + 1, v =>
    let b := t.base.get v
    match mates.get b with
    | none => some [b]
    | some m => do
      let above ← t.parent.get m
      return b :: (← chain? t mates steps above)

/-- The lowest base that is on the way up from both of two vertices: the first on the way from
the second that is also on the way from the first. -/
def commonBase? (t : Tree n) (mates : Mates n) (first second : Fin n) : Option (Fin n) := do
  let seen ← t.chain? mates (n + 1) first
  let way ← t.chain? mates (n + 1) second
  way.find? (· ∈ seen)

/-- A side of a blossom while it is marked: the parents as they are redirected, and the bases
of the vertices passed. -/
structure Marks (n : Nat) where
  parent : Table (Option (Fin n)) n
  marked : Table Bool n

/-- Marks the way up from a vertex to the base `stem`, and redirects the parent of each outer
vertex on it to the vertex before it, so that the blossom can be left the other way round. -/
def markSide? (mates : Mates n) (base : Table (Fin n) n) (stem : Fin n) :
    (steps : Nat) → (v child : Fin n) → Marks n → Option (Marks n)
  | 0, _, _, _ => none
  | steps + 1, v, child, marks =>
    if base.get v = stem then some marks
    else do
      let m ← mates.get v
      let marks : Marks n :=
        { parent := marks.parent.put v (some child)
          marked := (marks.marked.put (base.get v) true).put (base.get m) true }
      let above ← marks.parent.get m
      markSide? mates base stem steps above m marks

/-- Gives all vertices of marked bases the base `stem`, and makes those of them outer that are
not. -/
def merge (t : Tree n) (stem : Fin n) (marks : Marks n) : Tree n :=
  let inside (i : Fin n) : Bool := marks.marked.get (t.base.get i)
  { parent := marks.parent
    base := .ofFn fun i => if inside i then stem else t.base.get i
    outer := .ofFn fun i => t.outer.get i || inside i
    queue := t.queue ++ (List.finRange n).filter fun i => inside i && !t.outer.get i }

/-- Contracts the blossom that an edge between two outer vertices closes, and gives its base as
well. -/
def contract? (t : Tree n) (mates : Mates n) (v w : Fin n) : Option (Fin n × Tree n) := do
  let stem ← t.commonBase? mates v w
  let marks : Marks n := ⟨t.parent, .replicate n false⟩
  let marks ← markSide? mates t.base stem (n + 1) v w marks
  let marks ← markSide? mates t.base stem (n + 1) w v marks
  return (stem, t.merge stem marks)

end Tree

end OptimalMatching.Blossom
