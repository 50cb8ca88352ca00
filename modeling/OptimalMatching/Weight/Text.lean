import OptimalMatching.Decimal.Shortest
import OptimalMatching.Text
import OptimalMatching.Weight.Basic
/-!
# The text of a weight

An integer is written in decimal. A float is written with the fewest digits that read back as
the same float, and always with a point or an exponent, so that it is never taken for an
integer. It is written positionally when its leading digit stands for a power of ten from
`10 ^ (-4)` to `10 ^ 15`; outside that range it gets an exponent with a sign and at least two
digits.
-/

namespace OptimalMatching

namespace Decimal

/-- Digits written positionally, where `point` is the number of digits before the point. There
is at least one digit on either side of the point. -/
def positional (digits : List Char) (point : Int) : List Char :=
  let padded := List.replicate (1 - point).toNat '0' ++ digits
  let whole := (max point 1).toNat
  let filled := padded ++ List.replicate (whole + 1 - padded.length) '0'
  filled.take whole ++ '.' :: filled.drop whole

/-- Digits written with one digit before the point and an exponent. -/
def scientific (digits : List Char) (exponent : Int) : List Char :=
  let head := digits.take 1 ++ (if digits.length ≤ 1 then [] else '.' :: digits.drop 1)
  let e := Nat.toDigits 10 exponent.natAbs
  head ++ 'e' :: (if exponent < 0 then '-' else '+') ::
    (List.replicate (2 - e.length) '0' ++ e)

/-- A decimal as text. -/
def layout (d : Decimal) : List Char :=
  let digits := Nat.toDigits 10 d.digits
  let point := (digits.length : Int) + d.exponent
  if -3 ≤ point ∧ point ≤ 16 then positional digits point else scientific digits (point - 1)

end Decimal

namespace Weight

/-- The text of a float. -/
def floatText (x : Float) : String :=
  let p := FloatParts.ofFloat x
  let magnitude :=
    if p.isSpecial then "inf".toList
    else if p.significand = 0 then "0.0".toList
    else (Decimal.shortest p).layout
  if p.isSpecial ∧ p.fraction ≠ 0 then "nan"
  else String.ofList (if p.negative then '-' :: magnitude else magnitude)

/-- The text of a weight; none for an integer that is too long. -/
def text? : Weight → Option String
  | .int n => Text.decimal? n
  | .float x => some (floatText x)
  | .undefined _ => some "nan"

end Weight

end OptimalMatching
