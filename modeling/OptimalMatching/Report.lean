import OptimalMatching.Failure
/-!
# Reports

What an algorithm tells about its run: the steps it takes, and at the end what it found. A
computation has an `Outcome`: its reports in order, also if it fails, and its result.
-/

namespace OptimalMatching

/-- How important a report is. -/
inductive Level where
  | debug
  | info

def Level.name : Level → String
  | .debug => "DEBUG"
  | .info => "INFO"

/-- What an algorithm tells about its run. -/
inductive Report where
  /-- An assignment problem of this size is to be solved. -/
  | solving (size : Nat)
  /-- The potentials are about to be adjusted by this amount. -/
  | adjusting (delta : Weight)
  /-- An assignment was found after so many adjustments. -/
  | assigned (adjustments : Nat)
  /-- A perfect matching was found. -/
  | perfect (size : Nat) (weight : Weight)
  /-- A blossom was contracted into the vertex of this index. -/
  | contracted (base : Nat)
  /-- The matching was made larger so many times. -/
  | augmented (count : Nat)
  /-- A maximum matching was found. -/
  | maximum (size vertices : Nat)

namespace Report

/-- The level of a report: the matching found is an information, the rest is detail. -/
def level : Report → Level
  | .perfect _ _ | .maximum _ _ => .info
  | _ => .debug

/-- The text of a report, if its numbers can be written. Only who listens asks for it. -/
def message? : Report → Option String
  | .solving size => "Solving assignment problem of size " ++ toString size
  | .adjusting delta => do return "Adjusting dual variables by " ++ (← delta.text?)
  | .assigned adjustments =>
    "Assignment found after " ++ toString adjustments ++ " dual adjustments"
  | .perfect size weight => do
    return "Found perfect matching of size " ++ toString size ++ " with weight "
      ++ (← weight.text?)
  | .contracted base => "Contracted blossom with base " ++ toString base
  | .augmented count => "Performed " ++ toString count ++ " augmentations"
  | .maximum size vertices =>
    "Found maximum matching of size " ++ toString size ++ " among " ++ toString vertices
      ++ " vertices"

end Report

/-- The reports of a computation and what comes of it. -/
structure Outcome (α : Type) where
  reports : List Report
  result : Except Failure α

end OptimalMatching
