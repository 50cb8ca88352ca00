import OptimalMatching.Blossom.Search
/-!
# Augmenting from every root

A maximum matching is found by searching an augmenting path from each exposed vertex once, in
order, and flipping the path whenever there is one: its edges outside the matching come in, the
others go out. A vertex that has a mate keeps having one, and a root without an augmenting path
never gets one, so a single pass over the roots is enough.
-/

namespace OptimalMatching.Blossom

variable {n : Nat}

/-- Flips the path that ends in `v`, following the parents of its every other vertex, and the
old mates in between. -/
def flip? (parent : Table (Option (Fin n)) n) :
    (steps : Nat) → (v : Fin n) → Mates n → Option (Mates n)
  | 0, _, _ => none
  | steps + 1, v, mates => do
    let p ← parent.get v
    let flipped := (mates.put v (some p)).put p (some v)
    match mates.get p with
    | none => return flipped
    | some next => flip? parent steps next flipped

/-- The treatment of one exposed root. -/
structure Round (n : Nat) where
  root : Fin n
  /-- The matching before the search. -/
  before : Mates n
  finding : Finding n
  /-- The matching after the path, if there is one, has been flipped. -/
  after : Mates n

/-- The treatment of all roots. -/
structure Run (n : Nat) where
  rounds : List (Round n)
  /-- The matching at the end. -/
  mates : Mates n

/-- Searches from an exposed root and flips the path that is found. -/
def treatRoot? (neighbors : Neighbors n) (mates : Mates n) (root : Fin n) :
    Option (Round n) := do
  let finding ← searchFrom neighbors mates root
  match finding.last? with
  | none => return ⟨root, mates, finding, mates⟩
  | some v => return ⟨root, mates, finding, ← flip? finding.tree.parent n v mates⟩

namespace Run

/-- Treats the exposed ones among the given roots in order. -/
def go? (neighbors : Neighbors n) : List (Fin n) → Mates n → Option (Run n)
  | [], mates => some ⟨[], mates⟩
  | root :: rest, mates =>
    if (mates.get root).isSome then go? neighbors rest mates
    else do
      let round ← treatRoot? neighbors mates root
      let later ← go? neighbors rest round.after
      return ⟨round :: later.rounds, later.mates⟩

/-- Treats all roots, starting from a matching. -/
def from? (neighbors : Neighbors n) (mates : Mates n) : Option (Run n) :=
  go? neighbors (List.finRange n) mates

/-- Treats all roots, starting from the empty matching. -/
def ofNeighbors? (neighbors : Neighbors n) : Option (Run n) :=
  from? neighbors ((.replicate n none))

/-- How often the matching was made larger. -/
def augmentations (r : Run n) : Nat := r.rounds.countP fun round => round.finding.last?.isSome

/-- The pairs of the final matching, each once with the smaller index first, in increasing
order. -/
def pairs (r : Run n) : List (Fin n × Fin n) :=
  (List.finRange n).filterMap fun i =>
    match r.mates.get i with
    | some j => if i < j then some (i, j) else none
    | none => none

end Run

end OptimalMatching.Blossom
