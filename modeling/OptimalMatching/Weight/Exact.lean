/-!
# Exact values of floating-point numbers

A floating-point number that is not a NaN denotes an integer times a power of two, or one of
the two infinities. Numbers are compared by what they denote, without rounding, so a large
integer is never confused with the float nearest to it.

The bits of a double are one sign bit, eleven exponent bits and fifty-two fraction bits. An
exponent of zero marks a subnormal number, whose fraction has no leading one, and the greatest
exponent marks the infinities and the NaNs.
-/

namespace OptimalMatching

def twoTo (k : Nat) : Nat := Nat.pow 2 k

/-- The fields of a double. -/
structure FloatParts where
  /-- Whether the sign bit is set. -/
  negative : Bool
  /-- The exponent field, from 0 to 2047. -/
  exponent : Nat
  /-- The fraction field, below `2 ^ 52`. -/
  fraction : Nat

namespace FloatParts

/-- Takes a double apart. -/
def ofFloat (x : Float) : FloatParts :=
  let bits := x.toBits.toNat
  { negative := bits / twoTo 63 % 2 = 1
    exponent := bits / twoTo 52 % twoTo 11
    fraction := bits % twoTo 52 }

/-- Whether the parts are those of an infinity or a NaN. -/
def isSpecial (p : FloatParts) : Bool := p.exponent = 2047

/-- The integer factor of a finite number, without its sign. -/
def significand (p : FloatParts) : Nat :=
  if p.exponent = 0 then p.fraction else twoTo 52 + p.fraction

/-- The power of two that a finite number's significand is multiplied by. -/
def scale (p : FloatParts) : Int :=
  if p.exponent = 0 then -1074 else p.exponent - 1075

end FloatParts

/-- A number without rounding: `m * 2 ^ q`, or an infinity. -/
inductive Exact where
  /-- The number `m * 2 ^ q`. -/
  | finite (m q : Int)
  /-- An infinity, negative or positive. -/
  | infinite (negative : Bool)

namespace Exact

def ofInt (n : Int) : Exact := .finite n 0

/-- What a floating-point number denotes; a NaN denotes nothing. -/
def ofFloat? (x : Float) : Option Exact :=
  let p := FloatParts.ofFloat x
  if p.isSpecial then
    if p.fraction = 0 then some (.infinite p.negative) else none
  else
    let m : Int := p.significand
    some (.finite (if p.negative then -m else m) p.scale)

/-- Compares two exact numbers. Finite ones are brought to the smaller of their scales. -/
def compare : Exact → Exact → Ordering
  | .finite m q, .finite m' q' =>
    let low := min q q'
    Ord.compare (m * twoTo (q - low).toNat) (m' * twoTo (q' - low).toNat)
  | .finite _ _, .infinite negative => if negative then .gt else .lt
  | .infinite negative, .finite _ _ => if negative then .lt else .gt
  | .infinite negative, .infinite negative' =>
    if negative = negative' then .eq else if negative then .lt else .gt

theorem compare_ofInt (a b : Int) : compare (ofInt a) (ofInt b) = Ord.compare a b := by
  simp [compare, ofInt, twoTo]

end Exact

end OptimalMatching
