import OptimalMatching.Text
/-!
# Vertices

A vertex is a structured name: nothing, a whole number, a text, or a tuple of vertices. Two
vertices are the same exactly when they are built alike, so the number `1`, the text `"1"` and
the one-part tuple of `1` are three different vertices.

A vertex has two texts. Its literal shows how it is built: texts are quoted, and a tuple stands
in parentheses, with a comma after its only part if it has one. Its label is the same, except
that a vertex named by a text is labelled with that text as it is. Neither can be written if a
number in it is too long.
-/

namespace OptimalMatching

/-- The name of a vertex. -/
inductive Vertex where
  /-- The vertex named by nothing. -/
  | null
  /-- A vertex named by a whole number. -/
  | int (n : Int)
  /-- A vertex named by a text. -/
  | text (s : String)
  /-- A vertex named by a tuple of vertices. -/
  | tuple (items : List Vertex)
  deriving Inhabited

namespace Vertex

/-! ## Sameness -/

mutual

def decEq : (a b : Vertex) → Decidable (a = b)
  | .null, .null => isTrue rfl
  | .int m, .int n =>
    if h : m = n then isTrue (congrArg Vertex.int h) else isFalse (by simpa using h)
  | .text s, .text t =>
    if h : s = t then isTrue (congrArg Vertex.text h) else isFalse (by simpa using h)
  | .tuple as, .tuple bs =>
    match decEqItems as bs with
    | isTrue h => isTrue (congrArg Vertex.tuple h)
    | isFalse h => isFalse (by simpa using h)
  | .null, .int _ | .null, .text _ | .null, .tuple _ => isFalse (by simp)
  | .int _, .null | .int _, .text _ | .int _, .tuple _ => isFalse (by simp)
  | .text _, .null | .text _, .int _ | .text _, .tuple _ => isFalse (by simp)
  | .tuple _, .null | .tuple _, .int _ | .tuple _, .text _ => isFalse (by simp)

def decEqItems : (as bs : List Vertex) → Decidable (as = bs)
  | [], [] => isTrue rfl
  | [], _ :: _ => isFalse (by simp)
  | _ :: _, [] => isFalse (by simp)
  | a :: as, b :: bs =>
    match decEq a b with
    | isFalse h => isFalse (by simp [h])
    | isTrue h =>
      match decEqItems as bs with
      | isTrue hs => isTrue (by simp [h, hs])
      | isFalse hs => isFalse (by simp [hs])

end

instance : DecidableEq Vertex := decEq

/-! ## Texts -/

mutual

/-- The text that shows how a vertex is built. -/
def literal? : Vertex → Option String
  | .null => some "None"
  | .int n => Text.decimal? n
  | .text s => some (Text.quoted s)
  | .tuple items =>
    match literals? items with
    | none => none
    | some [only] => some ("(" ++ only ++ ",)")
    | some parts => some ("(" ++ String.intercalate ", " parts ++ ")")

/-- The literals of a list of vertices, if all of them can be written. -/
def literals? : List Vertex → Option (List String)
  | [] => some []
  | a :: as => do return (← literal? a) :: (← literals? as)

end

/-- The text that stands for a vertex in a drawing. -/
def label? : Vertex → Option String
  | .text s => some s
  | v => v.literal?

end Vertex

end OptimalMatching
