import OptimalMatching.Blossom.Tree
/-!
# Searching an augmenting path

The search grows an alternating tree from an exposed root, breadth first, one neighbor at a
time. A neighbor of the vertex under way is treated as follows.

* Within the same blossom, or along the edge of the matching, there is nothing to do.
* If it is outer, the edge closes a blossom, which is contracted.
* If it has no parent yet, the vertex under way becomes its parent. If it is exposed, an
  augmenting path is found; otherwise its mate becomes outer.

`Search.step` is one such step, or the step to the next vertex in the queue. Each vertex enters the
queue at most once, so the number of steps is bounded by the number of vertices and entries.
-/

namespace OptimalMatching.Blossom

variable {n : Nat}

/-- A contraction that a search has made. -/
structure Contraction (n : Nat) where
  /-- The vertex under way. -/
  vertex : Fin n
  /-- The neighbor that closed the blossom. -/
  neighbor : Fin n
  /-- The base of the blossom. -/
  stem : Fin n
  /-- The tree after the contraction. -/
  tree : Tree n

/-- A search under way. -/
structure Search (n : Nat) where
  tree : Tree n
  /-- The vertex under way. -/
  vertex : Fin n
  /-- Its neighbors that are still to be treated. -/
  entries : List (Fin n)

/-- What one step of a search leads to. -/
inductive Step (n : Nat) where
  /-- The search goes on. -/
  | next (s : Search n)
  /-- A blossom was contracted, and the search goes on. -/
  | contracted (c : Contraction n) (s : Search n)
  /-- An augmenting path ends in this vertex. -/
  | found (v : Fin n) (tree : Tree n)
  /-- There is nothing left to search. -/
  | exhausted (tree : Tree n)
  /-- A link of the tree is missing. -/
  | broken

namespace Search

def start (neighbors : Neighbors n) (root : Fin n) : Search n where
  tree := .ofRoot root
  vertex := root
  entries := neighbors.get root

def nextVertex (neighbors : Neighbors n) (s : Search n) : Step n :=
  match s.tree.queue with
  | [] => .exhausted s.tree
  | v :: rest => .next ⟨{ s.tree with queue := rest }, v, neighbors.get v⟩

/-- Treats a neighbor of the vertex under way. -/
def treat (mates : Mates n) (root : Fin n) (s : Search n) (w : Fin n) : Step n :=
  let v := s.vertex
  let t := s.tree
  if t.base.get v = t.base.get w ∨ mates.get v = some w then .next s
  else if t.isOuter mates root w then
    match t.contract? mates v w with
    | none => .broken
    | some (stem, t) => .contracted ⟨v, w, stem, t⟩ { s with tree := t }
  else
    match t.parent.get w with
    | some _ => .next s
    | none =>
      let t := t.attach v w
      match mates.get w with
      | none => .found w t
      | some m => .next { s with tree := t.enqueue m }

def step (neighbors : Neighbors n) (mates : Mates n) (root : Fin n) (s : Search n) : Step n :=
  match s.entries with
  | [] => s.nextVertex neighbors
  | w :: rest => treat mates root { s with entries := rest } w

end Search

/-- What a search has found. -/
structure Finding (n : Nat) where
  /-- The contractions that were made, in order. -/
  contractions : List (Contraction n)
  /-- The exposed vertex in which an augmenting path ends. -/
  last? : Option (Fin n)
  /-- The tree at the end. -/
  tree : Tree n

namespace Search

/-- Goes on for at most `fuel` steps. -/
def run (neighbors : Neighbors n) (mates : Mates n) (root : Fin n) :
    (fuel : Nat) → Search n → Option (Finding n)
  | 0, _ => none
  | fuel + 1, s =>
    match s.step neighbors mates root with
    | .next s => run neighbors mates root fuel s
    | .contracted c s =>
      (run neighbors mates root fuel s).map fun f => { f with contractions := c :: f.contractions }
    | .found v tree => some ⟨[], some v, tree⟩
    | .exhausted tree => some ⟨[], none, tree⟩
    | .broken => none

end Search

/-- A number of steps in which every search comes to its end: one for each entry of a list of
neighbors, one for each vertex, and one to notice the end. -/
def stepBound (neighbors : Neighbors n) : Nat :=
  neighbors.toList.flatten.length + n + 1

/-- Searches an augmenting path from an exposed root. -/
def searchFrom (neighbors : Neighbors n) (mates : Mates n) (root : Fin n) : Option (Finding n) :=
  (Search.start neighbors root).run neighbors mates root (stepBound neighbors)

end OptimalMatching.Blossom
