/-!
# Numbers

The language has one kind of number, the IEEE-754 double. A number is kept as its bit pattern: two
numbers are the same constant exactly when they are equal as values of this type, which the pool of
a code block needs, while `Number.equals` is the language's own equality, under which both zeros are
equal and NaN equals nothing.

Everything that decides how a number is written works on the exact value
`significand * 2 ^ exponent`, in natural numbers, and never on a rounded intermediate.
-/

namespace Mudscript

structure Number where
  bits : UInt64
  deriving DecidableEq, Hashable, Inhabited

/-- The exact non-negative value `significand * 2 ^ exponent`. -/
structure Magnitude where
  significand : Nat
  exponent : Int
  deriving DecidableEq

/-- The natural number a magnitude is, when it is one. -/
def Magnitude.whole? (m : Magnitude) : Option Nat :=
  if 0 ≤ m.exponent then
    some (m.significand * Nat.pow 2 m.exponent.toNat)
  else
    let unit := Nat.pow 2 (-m.exponent).toNat
    if m.significand % unit = 0 then some (m.significand / unit) else none

namespace Number

def ofFloat (x : Float) : Number := ⟨x.toBits⟩

def toFloat (n : Number) : Float := Float.ofBits n.bits

def nan : Number := ⟨0x7FF8000000000000⟩

def isNegative (n : Number) : Bool := n.bits.toNat / Nat.pow 2 63 = 1

def exponentField (n : Number) : Nat := n.bits.toNat / Nat.pow 2 52 % Nat.pow 2 11

def fraction (n : Number) : Nat := n.bits.toNat % Nat.pow 2 52

def isFinite (n : Number) : Bool := n.exponentField < 2047

def isNaN (n : Number) : Bool := n.exponentField = 2047 && n.fraction ≠ 0

/-- The absolute value of a finite number. Subnormal numbers lack the leading bit. -/
def magnitude (n : Number) : Magnitude :=
  if n.exponentField = 0 then ⟨n.fraction, -1074⟩
  else ⟨Nat.pow 2 52 + n.fraction, n.exponentField - 1075⟩

/-- The integer a number is, when it is finite and has no fractional part. Both zeros are `0`. -/
def whole? (n : Number) : Option Int :=
  if n.isFinite then
    n.magnitude.whole?.map fun k => if n.isNegative then -(k : Int) else k
  else none

/-- The number with the given sign and exact magnitude. The magnitude must be one that a finite
double has; `Number.rem` is the only caller, and a remainder is always such a magnitude. -/
def ofMagnitude (negative : Bool) (m : Magnitude) : Number :=
  let sign := if negative then Nat.pow 2 63 else 0
  if m.significand = 0 then ⟨.ofNat sign⟩
  else
    let top := m.significand.log2
    let place := m.exponent + top
    if -1022 ≤ place then
      let fraction :=
        if top ≤ 52 then m.significand <<< (52 - top) else m.significand >>> (top - 52)
      ⟨.ofNat (sign + (place + 1023).toNat * Nat.pow 2 52 + fraction % Nat.pow 2 52)⟩
    else
      ⟨.ofNat (sign + m.significand * Nat.pow 2 (m.exponent + 1074).toNat)⟩

/-- The double nearest to `digits / 10 ^ places`. -/
def ofDecimal (digits places : Nat) : Number := ofFloat (Float.ofScientific digits true places)

def ofNat (k : Nat) : Number := ofFloat (Float.ofNat k)

def add (a b : Number) : Number := ofFloat (a.toFloat + b.toFloat)

def sub (a b : Number) : Number := ofFloat (a.toFloat - b.toFloat)

def mul (a b : Number) : Number := ofFloat (a.toFloat * b.toFloat)

def div (a b : Number) : Number := ofFloat (a.toFloat / b.toFloat)

def neg (a : Number) : Number := ofFloat (-a.toFloat)

/-- The language's equality: `0` and `-0` are equal, NaN equals nothing. -/
def equals (a b : Number) : Bool := a.toFloat == b.toFloat

def lt (a b : Number) : Bool := a.toFloat < b.toFloat

def isZero (n : Number) : Bool := n.bits.toNat % Nat.pow 2 63 = 0

/-- The exact remainder of two magnitudes, at the finer of their two exponents. -/
def remMagnitude (a b : Magnitude) : Magnitude :=
  let e := min a.exponent b.exponent
  ⟨(a.significand <<< (a.exponent - e).toNat) % (b.significand <<< (b.exponent - e).toNat), e⟩

/-- The remainder of truncated division: it has the sign of `a`, its magnitude is below that of `b`,
and no rounding takes place. -/
def rem (a b : Number) : Number :=
  if a.isNaN || b.isNaN || !a.isFinite || b.isZero then nan
  else if !b.isFinite then a
  else ofMagnitude a.isNegative (remMagnitude a.magnitude b.magnitude)

end Number

end Mudscript
