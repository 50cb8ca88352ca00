import OptimalMatching.Assignment.Pairing
/-!
# Maximum pairings of tight cells

Some cells of a square grid are tight, and a pairing may use tight cells only. A given pairing is
made as large as possible.

**First approximation.** Each exposed column, in order, takes the first exposed row with which
it forms a tight cell.

**Augmenting paths.** A path starts in an exposed column, goes by a tight cell to a row, from a
row that has a column to that column, and so on, and ends in an exposed row. Pairing the rows of
the path with the columns before them makes the pairing one larger. Paths are searched depth
first, rows in order. A row or column that a search has entered is not entered again, neither by
this search nor by a later one of the same sweep. A sweep searches from every exposed column not
entered yet; sweeps go on until one finds nothing or no line is exposed.
-/

namespace OptimalMatching

variable {n : Nat}

/-- Which cells of a grid are tight. -/
abbrev Tight (n : Nat) := Fin n → Fin n → Bool

/-! ## The first approximation -/

namespace Pairing

/-- An exposed column takes the first exposed row with which it forms a tight cell. -/
def takeFirst (tight : Tight n) (p : Pairing n) (j : Fin n) : Pairing n :=
  match p.rowOf.get j with
  | some _ => p
  | none =>
    match (List.finRange n).find? fun i => tight i j && (p.columnOf.get i).isNone with
    | none => p
    | some i => p.link i j

/-- Every exposed column in order takes a row if it can. -/
def greedy (tight : Tight n) (p : Pairing n) : Pairing n :=
  (List.finRange n).foldl (takeFirst tight) p

end Pairing

/-! ## Augmenting paths -/

/-- The rows and columns that a search has entered. -/
structure Entered (n : Nat) where
  rows : Table Bool n
  columns : Table Bool n
  deriving DecidableEq

namespace Entered

def nowhere : Entered n := ⟨.replicate n false, .replicate n false⟩

def enterRow (e : Entered n) (i : Fin n) : Entered n := { e with rows := e.rows.put i true }

def enterColumn (e : Entered n) (j : Fin n) : Entered n :=
  { e with columns := e.columns.put j true }

end Entered

/-- The rest of an augmenting path: the cells to be paired, from the column in which the search
stands to an exposed row. -/
abbrev AugmentingPath (n : Nat) := List (Fin n × Fin n)

namespace Pairing

/-- Tries the rows of a list in column `j`. A tight row that is exposed ends the path; one that
has a column is entered, and the search goes on from its column. -/
def tryRows (tight : Tight n) (p : Pairing n)
    (descend : Fin n → Entered n → Option (AugmentingPath n) × Entered n) (j : Fin n) :
    List (Fin n) → Entered n → Option (AugmentingPath n) × Entered n
  | [], e => (none, e)
  | i :: rest, e =>
    if !tight i j || e.rows.get i then tryRows tight p descend j rest e
    else
      match p.columnOf.get i with
      | none => (some [(i, j)], e)
      | some k =>
        let e := e.enterRow i
        if e.columns.get k then tryRows tight p descend j rest e
        else
          match descend k (e.enterColumn k) with
          | (some path, e) => (some ((i, j) :: path), e)
          | (none, e) => tryRows tight p descend j rest e

/-- Searches from an entered column through at most `depth` columns. -/
def explore (tight : Tight n) (p : Pairing n) :
    (depth : Nat) → Fin n → Entered n → Option (AugmentingPath n) × Entered n
  | 0, _, e => (none, e)
  | depth + 1, j, e => tryRows tight p (explore tight p depth) j (List.finRange n) e

/-- Searches an augmenting path from column `j`. A path enters no column twice, so it has at
most `n` of them. -/
def search (tight : Tight n) (p : Pairing n) (j : Fin n) (e : Entered n) :
    Option (AugmentingPath n) × Entered n :=
  explore tight p n j (e.enterColumn j)

/-- Searches an augmenting path from column `j` and pairs its cells. There is no new pairing if
there is no path. -/
def grow? (tight : Tight n) (p : Pairing n) (j : Fin n) (e : Entered n) :
    Option (Pairing n) × Entered n :=
  match p.search tight j e with
  | (some path, e) => (some (p.linkAll path), e)
  | (none, e) => (none, e)

end Pairing

/-! ## Sweeps -/

/-- A sweep under way. -/
structure Sweep (n : Nat) where
  pairing : Pairing n
  entered : Entered n
  /-- Whether the sweep has made the pairing larger. -/
  grown : Bool

namespace Sweep

/-- Searches from a column that is exposed and not entered. -/
def visit (tight : Tight n) (s : Sweep n) (j : Fin n) : Sweep n :=
  if (s.pairing.rowOf.get j).isSome || s.entered.columns.get j then s
  else
    match s.pairing.grow? tight j s.entered with
    | (some p, e) => ⟨p, e, true⟩
    | (none, e) => { s with entered := e }

/-- A sweep over all columns. -/
def run (tight : Tight n) (p : Pairing n) : Sweep n :=
  (List.finRange n).foldl (visit tight) ⟨p, .nowhere, false⟩

end Sweep

namespace Pairing

/-- Sweeps, at most `sweeps` times, until one finds nothing or no line is exposed. -/
def saturate (tight : Tight n) : (sweeps : Nat) → Pairing n → Pairing n
  | 0, p => p
  | sweeps + 1, p =>
    if p.size < n then
      let s := Sweep.run tight p
      if s.grown then saturate tight sweeps s.pairing else s.pairing
    else p

/-- Extends a pairing to a maximum pairing of tight cells. A sweep that finds something makes
the pairing larger, so there are at most `n` of those. -/
def maximize (tight : Tight n) (p : Pairing n) : Pairing n :=
  saturate tight (n + 1) (p.greedy tight)

end Pairing

end OptimalMatching
