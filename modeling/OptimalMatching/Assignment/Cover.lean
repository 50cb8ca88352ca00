import OptimalMatching.Assignment.Augmenting
/-!
# Minimum covers of tight cells

A cover is a set of rows and columns such that every tight cell lies in one of them. From a
maximum pairing a cover with as many lines as the pairing has cells is found in this way: start
from the exposed rows; from a row that is reached, every column with which it forms a tight
cell is reached, and from a column its paired row. The cover consists of the rows that are not
reached and of the columns that are.

`cover?` checks its answer and gives none if it is not such a cover.
-/

namespace OptimalMatching

variable {n : Nat}

/-- A set of rows and columns. -/
structure Cover (n : Nat) where
  rows : Table Bool n
  columns : Table Bool n
  deriving DecidableEq

namespace Cover

def size (c : Cover n) : Nat :=
  (List.finRange n).countP (fun i => c.rows.get i)
    + (List.finRange n).countP fun j => c.columns.get j

/-- Whether a cell lies in no line of the cover. -/
def misses (c : Cover n) (i j : Fin n) : Bool := !c.rows.get i && !c.columns.get j

/-- Whether every tight cell lies in a line of the cover. -/
def coversAll (c : Cover n) (tight : Tight n) : Bool :=
  (List.finRange n).all fun i => (List.finRange n).all fun j => !(c.misses i j && tight i j)

end Cover

/-! ## The lines that are reached -/

/-- The lines reached so far, and the rows among them from which nothing has been reached
yet. -/
structure Reach (n : Nat) where
  rows : Table Bool n
  columns : Table Bool n
  pending : List (Fin n)

namespace Reach

def start (p : Pairing n) : Reach n where
  rows := p.columnOf.map Option.isNone
  columns := .replicate n false
  pending := (List.finRange n).filter fun i => (p.columnOf.get i).isNone

/-- Reaches column `j` from row `i`, and the row paired with it, if the cell is tight and the
column is new. -/
def visit (tight : Tight n) (p : Pairing n) (i : Fin n) (r : Reach n) (j : Fin n) : Reach n :=
  if tight i j && !r.columns.get j then
    let r := { r with columns := r.columns.put j true }
    match p.rowOf.get j with
    | none => r
    | some k =>
      if r.rows.get k then r
      else { r with rows := r.rows.put k true, pending := k :: r.pending }
  else r

/-- Reaches all columns that can be reached from row `i`. -/
def expand (tight : Tight n) (p : Pairing n) (i : Fin n) (r : Reach n) : Reach n :=
  (List.finRange n).foldl (visit tight p i) r

/-- Goes on from at most `steps` pending rows. -/
def close (tight : Tight n) (p : Pairing n) : (steps : Nat) → Reach n → Reach n
  | 0, r => r
  | steps + 1, r =>
    match r.pending with
    | [] => r
    | i :: rest => close tight p steps (expand tight p i { r with pending := rest })

/-- All lines reached from the exposed rows. Each row is pending at most once. -/
def all (tight : Tight n) (p : Pairing n) : Reach n := close tight p n (start p)

/-- The cover that belongs to the reached lines. -/
def cover (r : Reach n) : Cover n := ⟨r.rows.map not, r.columns⟩

end Reach

/-! ## The cover of a maximum pairing -/

/-- The cover found from a pairing, if it covers every tight cell and has as many lines as the
pairing has columns. -/
def Pairing.cover? (tight : Tight n) (p : Pairing n) : Option (Cover n) :=
  let c := (Reach.all tight p).cover
  if c.coversAll tight && c.size = p.columnCount then some c else none

end OptimalMatching
