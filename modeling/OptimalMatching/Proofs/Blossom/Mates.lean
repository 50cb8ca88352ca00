import Mathlib.Data.Fintype.Card
import OptimalMatching.Blossom.Tree
/-!
# Matchings and augmenting paths

The vocabulary in which the search and the run are specified: graphs without loops, matchings of
them, the vertices that a matching covers, and augmenting paths as lists of vertices.
-/

namespace OptimalMatching.Blossom

variable {n : Nat}

/-- A graph without loops in which being a neighbor is mutual. -/
structure Neighbors.Simple (neighbors : Neighbors n) : Prop where
  symm : ∀ {v w : Fin n}, w ∈ neighbors.get v → v ∈ neighbors.get w
  loopless : ∀ v : Fin n, v ∉ neighbors.get v

namespace Mates

/-- Mates are mutual, and they are neighbors. -/
structure Valid (neighbors : Neighbors n) (mates : Mates n) : Prop where
  symm : ∀ {v w : Fin n}, mates.get v = some w → mates.get w = some v
  adjacent : ∀ {v w : Fin n}, mates.get v = some w → w ∈ neighbors.get v

/-- The vertices that have a mate. -/
def covered (mates : Mates n) : Finset (Fin n) :=
  Finset.univ.filter fun v => (mates.get v).isSome

@[simp] theorem mem_covered {mates : Mates n} {v : Fin n} :
    v ∈ mates.covered ↔ (mates.get v).isSome := by
  simp [covered]

theorem not_mem_covered {mates : Mates n} {v : Fin n} :
    v ∉ mates.covered ↔ mates.get v = none := by
  simp

theorem mem_covered_of_some {mates : Mates n} {v w : Fin n} (h : mates.get v = some w) :
    v ∈ mates.covered := by
  simp [h]

namespace Valid

variable {neighbors : Neighbors n} {mates : Mates n}

theorem injective (valid : mates.Valid neighbors) {a b c : Fin n} (ha : mates.get a = some c)
    (hb : mates.get b = some c) : a = b :=
  Option.some.inj ((valid.symm ha).symm.trans (valid.symm hb))

theorem ne_self (valid : mates.Valid neighbors) (simple : neighbors.Simple) {a b : Fin n}
    (h : mates.get a = some b) : a ≠ b := by
  intro heq
  subst heq
  exact simple.loopless a (valid.adjacent h)

end Valid

theorem valid_replicate (neighbors : Neighbors n) :
    Valid neighbors (Table.replicate n none : Mates n) :=
  ⟨fun h => by simp at h, fun h => by simp at h⟩

def join (mates : Mates n) (a b : Fin n) : Mates n := (mates.put a (some b)).put b (some a)

theorem get_join (mates : Mates n) (a b c : Fin n) :
    (mates.join a b).get c = if b = c then some a else if a = c then some b else mates.get c := by
  simp [join, Table.get_put]

/-- Takes the mate of a vertex away. -/
def expose (mates : Mates n) (a : Fin n) : Mates n := mates.put a none

theorem get_expose (mates : Mates n) (a b : Fin n) :
    (mates.expose a).get b = if a = b then none else mates.get b :=
  Table.get_put ..

/-- The join of two vertices does not depend on the mates that they had. -/
theorem join_expose (mates : Mates n) (a b : Fin n) :
    (mates.expose a).join a b = mates.join a b := by
  refine Table.ext fun i => ?_
  simp only [get_join, get_expose]
  split_ifs <;> rfl

theorem Valid.join {neighbors : Neighbors n} {mates : Mates n} (valid : mates.Valid neighbors)
    (simple : neighbors.Simple) {a b : Fin n} (adj : b ∈ neighbors.get a)
    (ha : mates.get a = none) (hb : mates.get b = none) : (mates.join a b).Valid neighbors := by
  have hne : a ≠ b := by
    intro heq
    subst heq
    exact simple.loopless a adj
  constructor
  · intro v w h
    rw [get_join] at h
    split_ifs at h with hbv hav
    · obtain rfl := Option.some.inj h
      rw [get_join, if_neg hne.symm, if_pos rfl, hbv]
    · obtain rfl := Option.some.inj h
      rw [get_join, if_pos rfl, hav]
    · -- A pair from before cannot reach `a` or `b`, which were exposed.
      have hw := valid.symm h
      have haw : a ≠ w := by
        intro heq
        subst heq
        simp [ha] at hw
      have hbw : b ≠ w := by
        intro heq
        subst heq
        simp [hb] at hw
      rw [get_join, if_neg hbw, if_neg haw, hw]
  · intro v w h
    rw [get_join] at h
    split_ifs at h with hbv hav
    · exact Option.some.inj h ▸ hbv ▸ simple.symm adj
    · exact Option.some.inj h ▸ hav ▸ adj
    · exact valid.adjacent h

/-- An exposed vertex may take the place of the mate of its neighbor. -/
theorem Valid.rotate {neighbors : Neighbors n} {mates : Mates n} (valid : mates.Valid neighbors)
    (simple : neighbors.Simple) {a b c : Fin n} (adj : b ∈ neighbors.get a)
    (ha : mates.get a = none) (hb : mates.get b = some c) :
    ((mates.join a b).expose c).Valid neighbors := by
  have hab : a ≠ b := by
    intro heq
    subst heq
    exact simple.loopless a adj
  have hc : mates.get c = some b := valid.symm hb
  have hca : c ≠ a := by
    intro heq
    subst heq
    simp [ha] at hc
  have hcb : c ≠ b := (valid.ne_self simple hb).symm
  have hget : ∀ x, ((mates.join a b).expose c).get x =
      if c = x then none else if b = x then some a else if a = x then some b else mates.get x :=
    fun x => by rw [get_expose, get_join]
  constructor
  · intro v w h
    rw [hget] at h
    split_ifs at h with hcv hbv hav
    · obtain rfl := Option.some.inj h
      rw [hget, if_neg hca, if_neg hab.symm, if_pos rfl, hbv]
    · obtain rfl := Option.some.inj h
      rw [hget, if_neg hcb, if_pos rfl, hav]
    · -- The other pairs touch none of the three vertices.
      have hw := valid.symm h
      have hcw : c ≠ w := fun hcw => hbv (Option.some.inj (hc.symm.trans (hcw ▸ hw)))
      have hbw : b ≠ w := fun hbw => hcv (Option.some.inj (hb.symm.trans (hbw ▸ hw)))
      have haw : a ≠ w := by
        intro heq
        subst heq
        simp [ha] at hw
      rw [hget, if_neg hcw, if_neg hbw, if_neg haw, hw]
  · intro v w h
    rw [hget] at h
    split_ifs at h with hcv hbv hav
    · exact Option.some.inj h ▸ hbv ▸ simple.symm adj
    · exact Option.some.inj h ▸ hav ▸ adj
    · exact valid.adjacent h

end Mates

/-! ## Augmenting paths -/

/-- The edges between successive vertices of a list are edges of the graph, and edges of the
matching every other time; `matched` tells whether the first one is. -/
def Alternates (neighbors : Neighbors n) (mates : Mates n) : (matched : Bool) → List (Fin n) → Prop
  | matched, a :: b :: l =>
    b ∈ neighbors.get a ∧ (mates.get a = some b ↔ matched = true) ∧
      Alternates neighbors mates (!matched) (b :: l)
  | _, _ => True

/-- A simple path from an exposed vertex to another one whose edges are outside and inside the
matching by turns. -/
structure AugmentingPath (neighbors : Neighbors n) (mates : Mates n) (first last : Fin n)
    (path : List (Fin n)) : Prop where
  starts : path.head? = some first
  ends : path.getLast? = some last
  distinct : first ≠ last
  exposed_first : mates.get first = none
  exposed_last : mates.get last = none
  simple : path.Nodup
  alternates : Alternates neighbors mates false path

end OptimalMatching.Blossom
