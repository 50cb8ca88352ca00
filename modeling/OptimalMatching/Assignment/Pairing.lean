import OptimalMatching.Table
/-!
# Pairings of rows and columns

A partial one-to-one pairing of `n` rows with `n` columns, kept as two tables: the column of
each row and the row of each column. A line without a partner is exposed.
-/

namespace OptimalMatching

/-- A pairing of rows and columns. -/
structure Pairing (n : Nat) where
  /-- The column paired with each row. -/
  columnOf : Table (Option (Fin n)) n
  /-- The row paired with each column. -/
  rowOf : Table (Option (Fin n)) n
  deriving DecidableEq

namespace Pairing

variable {n : Nat}

/-- The pairing that leaves every line exposed. -/
def empty : Pairing n := ⟨.replicate n none, .replicate n none⟩

def link (p : Pairing n) (i j : Fin n) : Pairing n :=
  ⟨p.columnOf.put i (some j), p.rowOf.put j (some i)⟩

/-- Pairs the rows and columns of a list of cells, one after the other. -/
def linkAll (p : Pairing n) (cells : List (Fin n × Fin n)) : Pairing n :=
  cells.foldl (fun p c => p.link c.1 c.2) p

/-- The number of rows that have a column. -/
def size (p : Pairing n) : Nat := (List.finRange n).countP fun i => (p.columnOf.get i).isSome

/-- The number of columns that have a row. -/
def columnCount (p : Pairing n) : Nat := (List.finRange n).countP fun j => (p.rowOf.get j).isSome

/-- The column of each row, if every row has one. -/
def assignment? (p : Pairing n) : Option (Table (Fin n) n) :=
  if h : ∀ i : Fin n, (p.columnOf.get i).isSome then
    some (.ofFn fun i => (p.columnOf.get i).get (h i))
  else none

@[simp] theorem columnOf_empty (i : Fin n) : (empty : Pairing n).columnOf.get i = none := by
  simp [empty]

@[simp] theorem rowOf_empty (j : Fin n) : (empty : Pairing n).rowOf.get j = none := by
  simp [empty]

theorem columnOf_link (p : Pairing n) (i j i' : Fin n) :
    (p.link i j).columnOf.get i' = if i = i' then some j else p.columnOf.get i' := by
  simp [link, Table.get_put]

theorem rowOf_link (p : Pairing n) (i j j' : Fin n) :
    (p.link i j).rowOf.get j' = if j = j' then some i else p.rowOf.get j' := by
  simp [link, Table.get_put]

/-- An assignment gives each row its column. -/
theorem assignment?_eq_some_iff {p : Pairing n} {columns : Table (Fin n) n} :
    p.assignment? = some columns ↔ ∀ i : Fin n, p.columnOf.get i = some (columns.get i) := by
  unfold assignment?
  split
  · next h =>
    simp only [Option.some.injEq]
    constructor
    · rintro rfl i
      simp
    · intro hc
      refine Table.ext fun i => ?_
      rw [Table.get_ofFn]
      exact Option.get_of_eq_some _ (hc i)
  · next h =>
    simp only [reduceCtorEq, false_iff]
    exact fun hc => h fun i => by simp [hc i]

end Pairing

end OptimalMatching
