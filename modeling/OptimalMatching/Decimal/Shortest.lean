import OptimalMatching.Weight.Exact
/-!
# The shortest decimal of a floating-point number

Many decimals round to the same floating-point number. The shortest one is found by trying
grids of decimals, with one significant digit, with two, and so on. On each grid the two
neighbours of the number are tried: the first grid on which one of them rounds back to the
number wins, of two such neighbours the nearer one, and of two equally near ones the even one.
Seventeen digits always suffice.

The decimals that round to `m * 2 ^ q` fill an interval. It reaches half the distance to the
next float on either side, which is smaller below a power of two, and its ends belong to it
when `m` is even.
-/

namespace OptimalMatching

/-- The decimal `digits * 10 ^ exponent`. -/
structure Decimal where
  digits : Nat
  exponent : Int

namespace Decimal

def tenTo (k : Nat) : Nat := Nat.pow 10 k

def digitCount (n : Nat) : Nat := (Nat.toDigits 10 n).length

/-- A positive number with the interval that rounds to it, over a common denominator. -/
structure Target where
  /-- The lower end of the interval. -/
  low : Nat
  /-- The number itself. -/
  value : Nat
  /-- The upper end of the interval. -/
  high : Nat
  /-- The common denominator. -/
  denominator : Nat
  /-- Whether the ends belong to the interval. -/
  closed : Bool

namespace Target

/-- The target of a positive floating-point number. -/
def ofParts (p : FloatParts) : Target :=
  let m := p.significand
  let below := if p.fraction = 0 ∧ 1 < p.exponent then 1 else 2
  let q := p.scale - 2
  let up := twoTo q.toNat
  { low := (4 * m - below) * up
    value := 4 * m * up
    high := (4 * m + 2) * up
    denominator := twoTo (-q).toNat
    closed := m % 2 = 0 }

/-- The exponent of ten of the leading digit: the greatest `e` with `10 ^ e` at most the
number. -/
def magnitude (t : Target) : Int :=
  if t.denominator ≤ t.value then digitCount (t.value / t.denominator) - 1
  else
    let k := digitCount (t.denominator / t.value)
    if t.denominator = t.value * tenTo (k - 1) then 1 - (k : Int) else -(k : Int)

/-- Whether the decimal `c * 10 ^ e` rounds to the number. -/
def accepts (t : Target) (c : Nat) (e : Int) : Bool :=
  let c := c * t.denominator * tenTo e.toNat
  let down := tenTo (-e).toNat
  let low := t.low * down
  let high := t.high * down
  if t.closed then low ≤ c && c ≤ high else low < c && c < high

/-- The best decimal on the grid of multiples of `10 ^ e`, if one there rounds to the
number. -/
def onGrid? (t : Target) (e : Int) : Option Nat :=
  let top := t.value * tenTo (-e).toNat
  let step := t.denominator * tenTo e.toNat
  let c := top / step
  let rest := top % step
  match t.accepts c e, t.accepts (c + 1) e with
  | false, false => none
  | true, false => some c
  | false, true => some (c + 1)
  | true, true =>
    some (if 2 * rest < step then c
      else if step < 2 * rest then c + 1
      else if c % 2 = 0 then c else c + 1)

/-- Tries the grids with `k` digits and more, as many as there are tries left. -/
def search (t : Target) : (tries k : Nat) → Option Decimal
  | 0, _ => none
  | tries + 1, k =>
    let e := t.magnitude - (k : Int) + 1
    match t.onGrid? e with
    | some c => some ⟨c, e⟩
    | none => search t tries (k + 1)

end Target

/-- Drops the zeros at the end of the digits, at most as many as there are steps. -/
def trim : (steps : Nat) → Decimal → Decimal
  | 0, d => d
  | steps + 1, d =>
    if d.digits ≠ 0 ∧ d.digits % 10 = 0 then trim steps ⟨d.digits / 10, d.exponent + 1⟩ else d

/-- The shortest decimal that rounds to a positive floating-point number. -/
def shortest (p : FloatParts) : Decimal :=
  match (Target.ofParts p).search 17 1 with
  | some d => trim (digitCount d.digits) d
  | none => ⟨0, 0⟩

end Decimal

end OptimalMatching
