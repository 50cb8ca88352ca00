import OptimalMatching.Weight.Exact
/-!
# Weights

The weight of an edge is an integer of any size or a floating-point number. Weights are
compared as the numbers they denote. A weight that is not a number compares with nothing, not
even with itself; each one put in keeps the mark of its occurrence, by which the same
occurrence is recognised again.

Two integers are added and subtracted exactly. As soon as a float takes part, an integer is
first rounded to the nearest float, half to even, and there is no result when it would round
to `2 ^ 1024` or more.
-/

namespace OptimalMatching

/-- The weight of an edge. -/
inductive Weight where
  /-- An integer weight. -/
  | int (n : Int)
  /-- A floating-point weight. -/
  | float (x : Float)
  /-- A weight that is not a number, with the mark of its occurrence. -/
  | undefined (occurrence : Nat)
  deriving Inhabited

namespace Weight

/-- The weight of an edge that is added without one. -/
def default : Weight := .float 1.0

/-! ## Comparison -/

/-- The number that a weight denotes. -/
def number? : Weight → Option Exact
  | .int n => some (.ofInt n)
  | .float x => Exact.ofFloat? x
  | .undefined _ => none

/-- Compares two weights as numbers; there is no answer if one is not a number. -/
def compare? (a b : Weight) : Option Ordering :=
  match a.number?, b.number? with
  | some x, some y => some (x.compare y)
  | _, _ => none

def lt (a b : Weight) : Bool := a.compare? b = some .lt

def le (a b : Weight) : Bool := a.compare? b = some .lt ∨ a.compare? b = some .eq

/-- Whether two weights denote the same number. -/
def sameNumber (a b : Weight) : Bool := a.compare? b = some .eq

def isZero (w : Weight) : Bool := w.sameNumber (.int 0)

/-- Whether two weights are the same entry: the same number, or one and the same occurrence of
something that is not a number. -/
def identical : Weight → Weight → Bool
  | .undefined i, .undefined j => i = j
  | a, b => a.sameNumber b

def infinity : Weight := .float (1.0 / 0.0)

/-- Whether a weight is a finite number and not negative, as the cost of an assignment must
be. -/
def isCost (w : Weight) : Bool := (Weight.int 0).le w && w.lt infinity

@[simp] theorem compare?_int (a b : Int) :
    (Weight.int a).compare? (.int b) = some (Ord.compare a b) := by
  simp [compare?, number?, Exact.compare_ofInt]

@[simp] theorem lt_int (a b : Int) : (Weight.int a).lt (.int b) = decide (a < b) := by
  simp [lt, Int.compare_eq_lt]

@[simp] theorem sameNumber_int (a b : Int) :
    (Weight.int a).sameNumber (.int b) = decide (a = b) := by
  simp [sameNumber]

@[simp] theorem isZero_int (n : Int) : (Weight.int n).isZero = decide (n = 0) := by
  simp [isZero]

/-! ## Arithmetic -/

/-- The least magnitude of an integer that no float is near to. It lies halfway between the
greatest float and `2 ^ 1024`. -/
def floatLimit : Nat := twoTo 1024 - twoTo 970

/-- The weight as a float; none for an integer too large to become one. -/
def toFloat? : Weight → Option Float
  | .int n => if n.natAbs < floatLimit then some (Float.ofInt n) else none
  | .float x => some x
  | .undefined _ => some (0.0 / 0.0)

/-- The sum of two weights; none if an integer is too large to be added to a float. -/
def add? : Weight → Weight → Option Weight
  | .int m, .int n => some (.int (m + n))
  | a, b => do return .float ((← a.toFloat?) + (← b.toFloat?))

/-- The difference of two weights; none if an integer is too large to be subtracted from a
float, or a float from it. -/
def sub? : Weight → Weight → Option Weight
  | .int m, .int n => some (.int (m - n))
  | a, b => do return .float ((← a.toFloat?) - (← b.toFloat?))

/-- The sum of a list of weights, taken from the left and starting from the integer zero. -/
def sum? (weights : List Weight) : Option Weight :=
  weights.foldlM add? (.int 0)

@[simp] theorem add?_int (a b : Int) : (Weight.int a).add? (.int b) = some (.int (a + b)) := rfl

@[simp] theorem sub?_int (a b : Int) : (Weight.int a).sub? (.int b) = some (.int (a - b)) := rfl

/-! ## The least of several weights -/

/-- The least of a weight and those after it: the first that no later one is less than. A
candidate is replaced only by a weight that is less than it. -/
def least (first : Weight) (rest : List Weight) : Weight :=
  rest.foldl (fun best w => if w.lt best then w else best) first

/-- The least of a list of weights, if there is one. -/
def least? : List Weight → Option Weight
  | [] => none
  | first :: rest => some (least first rest)

end Weight

end OptimalMatching
