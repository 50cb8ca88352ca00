import OptimalMatching.OrderedMap
import OptimalMatching.Vertex
/-!
# Bags of vertices

A bag holds vertices with multiplicities. Bags come from outside: what the library uses of them is
a parameter (`Bags`), and what it relies on is that they keep their different elements in the order
in which these were first put in, and forget one that is taken out for the last time
(`Bags.Lawful`).

A `Tally`, which counts in an ordered map, is such a bag.
-/

namespace OptimalMatching

/-- What can be done with bags of vertices. -/
structure Bags where
  Bag : Type
  ofList : List Vertex → Bag
  /-- Puts a vertex in once more. -/
  add : Bag → Vertex → Bag
  /-- Takes a vertex out once. -/
  remove : Bag → Vertex → Bag
  contains : Bag → Vertex → Bool
  /-- How often a vertex is held. -/
  count : Bag → Vertex → Nat
  /-- The different vertices. -/
  elements : Bag → List Vertex
  /-- All vertices, each repeated as often as it is held. -/
  toList : Bag → List Vertex

/-- Bags count what is put in and taken out, and keep their elements in order of first insertion.
Nothing is said of taking out a vertex that is not held. -/
structure Bags.Lawful (B : Bags) : Prop where
  contains_iff : ∀ b v, B.contains b v = true ↔ 0 < B.count b v
  mem_elements : ∀ b v, v ∈ B.elements b ↔ 0 < B.count b v
  nodup_elements : ∀ b, (B.elements b).Nodup
  toList_eq : ∀ b, B.toList b = (B.elements b).flatMap fun v => List.replicate (B.count b v) v
  count_ofList : ∀ vs v, B.count (B.ofList vs) v = vs.count v
  elements_ofList : ∀ vs, B.elements (B.ofList vs) = distinct vs
  count_add : ∀ b v u, B.count (B.add b v) u = B.count b u + if v = u then 1 else 0
  elements_add : ∀ b v, B.elements (B.add b v) =
    if 0 < B.count b v then B.elements b else B.elements b ++ [v]
  count_remove : ∀ b v u, 0 < B.count b v →
    B.count (B.remove b v) u = B.count b u - if v = u then 1 else 0
  elements_remove : ∀ b v, 0 < B.count b v → B.elements (B.remove b v) =
    if B.count b v = 1 then (B.elements b).filter (· ≠ v) else B.elements b

/-! ## Bags that count in a map -/

/-- How often each vertex is held. A vertex that is not held has no entry. -/
structure Tally where
  counts : OrderedMap Vertex Nat
  positive : ∀ {v n}, counts.get? v = some n → 0 < n

namespace Tally

def empty : Tally := ⟨.empty, fun h => by cases h⟩

def count (t : Tally) (v : Vertex) : Nat := (t.counts.get? v).getD 0

/-- Holds a vertex a number of times. -/
def set (t : Tally) (v : Vertex) (n : Nat) (pos : 0 < n) : Tally where
  counts := t.counts.insert v n
  positive {u m} h := by
    rw [OrderedMap.get?_insert] at h
    split at h
    · exact Option.some.inj h ▸ pos
    · exact t.positive h

/-- Holds a vertex no more. -/
def drop (t : Tally) (v : Vertex) : Tally where
  counts := t.counts.erase v
  positive {u m} h := by
    rw [OrderedMap.get?_erase] at h
    split at h
    · cases h
    · exact t.positive h

def add (t : Tally) (v : Vertex) : Tally := t.set v (t.count v + 1) (Nat.succ_pos _)

def remove (t : Tally) (v : Vertex) : Tally :=
  if h : 1 < t.count v then t.set v (t.count v - 1) (Nat.sub_pos_of_lt h) else t.drop v

def ofList (vs : List Vertex) : Tally := vs.foldl add empty

def elements (t : Tally) : List Vertex := t.counts.keys

/-- Bags of vertices that are tallies. -/
def bags : Bags where
  Bag := Tally
  ofList := ofList
  add := add
  remove := remove
  contains t v := t.counts.contains v
  count := count
  elements := elements
  toList t := t.counts.entries.flatMap fun (v, n) => List.replicate n v

end Tally

end OptimalMatching
