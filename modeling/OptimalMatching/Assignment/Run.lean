import OptimalMatching.Assignment.Excess
import OptimalMatching.Report
/-!
# The primal-dual run

A run starts from the excess of a square grid of costs and the empty pairing. In each round the
pairing is extended to a maximum pairing of the tight cells. If it is perfect, it is an
assignment of least cost, and the run ends. Otherwise a minimum cover of the tight cells is
found, and the potentials are adjusted by the least excess outside the cover, which makes at
least one more cell tight.

A run is recorded round by round, so that its course can be inspected. An adjustment by a finite
amount that does not let the pairing grow lets more columns be reached, so no run has more
than `n * n` of them.
-/

namespace OptimalMatching.Assignment

variable {n : Nat}

/-- A round that ends with an adjustment. -/
structure Round (n : Nat) where
  /-- The maximum pairing of the tight cells. -/
  pairing : Pairing n
  /-- The minimum cover found from it. -/
  cover : Cover n
  /-- The least excess outside the cover. -/
  delta : Weight
  /-- The excess after the adjustment. -/
  excess : Costs n

/-- How a run ends. -/
inductive Ending (n : Nat) where
  /-- The pairing assigns a column to each row. -/
  | assigned (pairing : Pairing n) (columns : Table (Fin n) n)
  /-- The reached lines do not give a minimum cover. -/
  | notACover (pairing : Pairing n)
  /-- No cell is left outside the cover. -/
  | nothingUncovered (pairing : Pairing n) (cover : Cover n)
  /-- An integer excess is too large to be combined with a float. -/
  | tooLarge (pairing : Pairing n) (cover : Cover n) (delta : Weight)
  /-- The adjustments do not come to an end. -/
  | unbounded

/-- A run of the algorithm. -/
structure Run (n : Nat) where
  rounds : List (Round n)
  ending : Ending n

namespace Run

/-- Runs for at most `fuel` rounds. -/
def go : (fuel : Nat) → Costs n → Pairing n → Run n
  | 0, _, _ => ⟨[], .unbounded⟩
  | fuel + 1, excess, p =>
    let p := p.maximize excess.tight
    match p.assignment? with
    | some columns => ⟨[], .assigned p columns⟩
    | none =>
      match p.cover? excess.tight with
      | none => ⟨[], .notACover p⟩
      | some cover =>
        match excess.slack? cover with
        | none => ⟨[], .nothingUncovered p cover⟩
        | some delta =>
          match excess.adjust? cover delta with
          | none => ⟨[], .tooLarge p cover delta⟩
          | some adjusted =>
            let rest := go fuel adjusted p
            ⟨⟨p, cover, delta, adjusted⟩ :: rest.rounds, rest.ending⟩

def ofExcess (excess : Costs n) : Run n := go (n * n + 1) excess .empty

/-- The column of each row, or why there is none. -/
def assignment (r : Run n) : Except Failure (Table (Fin n) n) :=
  match r.ending with
  | .assigned _ columns => .ok columns
  | .notACover _ => .error .notACover
  | .nothingUncovered _ _ => .error .nothingUncovered
  | .tooLarge _ _ _ => .error .weightTooLarge
  | .unbounded => .error .unbounded

/-- What the run tells. An adjustment is told before it is made. -/
def reports (r : Run n) : List Report :=
  .solving n :: r.rounds.map (fun round => .adjusting round.delta) ++
    match r.ending with
    | .assigned _ _ => [.assigned r.rounds.length]
    | .tooLarge _ _ delta => [.adjusting delta]
    | _ => []

end Run

end OptimalMatching.Assignment
