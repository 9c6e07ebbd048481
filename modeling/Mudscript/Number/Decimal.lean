import Mudscript.Number

/-!
# The shortest decimal of a number

A finite double stands for an interval of reals, those that round to it. `Decimal.shortest` is the
decimal with the fewest digits inside that interval, and of two such decimals the one nearer to the
number; an exact tie takes the larger. The search walks from a coarse power of ten to finer ones. On
each grid only the two neighbours of the number can be the answer, because the interval is convex
and contains the number.
-/

namespace Mudscript

structure Decimal where
  digits : Nat
  exponent : Int
  deriving DecidableEq

namespace Decimal

/-- The reals that round to one double, over a common denominator: the double itself is
`value / denominator`, and the ends belong to the interval when `closed`. -/
structure Interval where
  value : Nat
  low : Nat
  high : Nat
  denominator : Nat
  closed : Bool

/-- The interval of a positive magnitude. Below a power of two the doubles lie twice as dense, so
the lower end is nearer there, except at the bottom of the exponent range. -/
def Interval.ofMagnitude (m : Magnitude) : Interval :=
  let unit := Nat.pow 2 (m.exponent - 2).toNat
  let dense := m.significand = Nat.pow 2 52 && -1074 < m.exponent
  { value := 4 * m.significand * unit
    low := (4 * m.significand - (if dense then 1 else 2)) * unit
    high := (4 * m.significand + 2) * unit
    denominator := Nat.pow 2 (2 - m.exponent).toNat
    closed := m.significand % 2 = 0 }

/-- Whether `x / scale` lies in the interval stretched by `stretch`. -/
def Interval.contains (i : Interval) (stretch x : Nat) : Bool :=
  if i.closed then i.low * stretch ≤ x && x ≤ i.high * stretch
  else i.low * stretch < x && x < i.high * stretch

/-- The multiple of `10 ^ k` that is nearest to the number and inside its interval, if there is
one. -/
def Interval.onGrid? (i : Interval) (k : Int) : Option Nat :=
  let stretch := Nat.pow 10 (-k).toNat
  let step := i.denominator * Nat.pow 10 k.toNat
  let value := i.value * stretch
  let below := value / step
  let lowHit := i.contains stretch (below * step)
  let highHit := i.contains stretch ((below + 1) * step)
  if lowHit && highHit then
    if value - below * step < (below + 1) * step - value then some below else some (below + 1)
  else if lowHit then some below
  else if highHit then some (below + 1)
  else none

/-- Tries `steps` grids, each ten times finer than the one before, from `10 ^ k` on. -/
def Interval.search (i : Interval) : Nat → Int → Decimal
  | 0, k => ⟨i.value / i.denominator, k⟩
  | steps + 1, k =>
    match i.onGrid? k with
    | some digits => ⟨digits, k⟩
    | none => i.search steps (k - 1)

/-- The shortest decimal of a magnitude. The first grid is at least as coarse as the number's
leading digit, and seventeen digits always suffice. -/
def shortest (m : Magnitude) : Decimal :=
  if m.significand = 0 then ⟨0, 0⟩
  else
    let first := (m.exponent + m.significand.log2 + 1) * 30103 / 100000 + 1
    (Interval.ofMagnitude m).search 24 first

/-- A decimal written out in full, without an exponent: no digit after the point is a trailing zero,
and there is no point without digits after it. -/
def positional (d : Decimal) : String :=
  let digits := toString d.digits
  if 0 ≤ d.exponent then
    if d.digits = 0 then digits else digits ++ "".pushn '0' d.exponent.toNat
  else
    let places := (-d.exponent).toNat
    let padded := "".pushn '0' (places + 1 - digits.length) ++ digits
    let fraction :=
      ((padded.toList.drop (padded.length - places)).reverse.dropWhile (· = '0')).reverse
    let integral := String.ofList (padded.toList.take (padded.length - places))
    if fraction.isEmpty then integral else integral ++ "." ++ String.ofList fraction

end Decimal

namespace Number

/-- A number written in full: the fewest digits that read back as the same number, never with an
exponent. A negative zero keeps its sign. -/
def text (n : Number) : String :=
  if n.isNaN then "NaN"
  else
    let sign := if n.isNegative then "-" else ""
    if n.isFinite then sign ++ (Decimal.shortest n.magnitude).positional else sign ++ "inf"

end Number

end Mudscript
