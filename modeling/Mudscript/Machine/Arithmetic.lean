import Mudscript.Machine.Fault

/-!
# Operators

The operators on values. `+` also joins texts: if one side is a text, the other is taken as it
prints.
-/

namespace Mudscript

/-- The order of two numbers; a NaN has none. -/
def Number.order? (a b : Number) : Option Ordering :=
  if a.lt b then some .lt
  else if b.lt a then some .gt
  else if a.equals b then some .eq
  else none

inductive Arithmetic
  | subtract | multiply | divide | modulo
  deriving DecidableEq, Repr

inductive Comparison
  | greater | greaterEqual | less | lessEqual
  deriving DecidableEq, Repr

def Comparison.holds : Comparison → Ordering → Bool
  | .greater, o => o.isGT
  | .greaterEqual, o => o.isGE
  | .less, o => o.isLT
  | .lessEqual, o => o.isLE

namespace Value

def add (display : Value → String) : Value → Value → Except Fault Value
  | .number a, .number b => .ok (.number (a.add b))
  | .text a, b => .ok (.text (a ++ display b))
  | a, .text b => .ok (.text (display a ++ b))
  | a, b => .error (.cannotAdd a.type b.type)

def arithmetic (op : Arithmetic) : Value → Value → Except Fault Value
  | .number a, .number b =>
    match op with
    | .subtract => .ok (.number (a.sub b))
    | .multiply => .ok (.number (a.mul b))
    | .divide => if b.isZero then .error .divisionByZero else .ok (.number (a.div b))
    | .modulo => if b.isZero then .error .divisionByZero else .ok (.number (a.rem b))
  | _, _ => .error .operandsNotNumbers

/-- The order of two numbers, or of two texts by their characters. -/
def order? : Value → Value → Except Fault (Option Ordering)
  | .number a, .number b => .ok (a.order? b)
  | .text a, .text b => .ok (some (compareOfLessAndEq a b))
  | a, b => .error (.cannotCompare a.type b.type)

/-- A comparison of values without an order fails to hold. -/
def compare (op : Comparison) (a b : Value) : Except Fault Bool := do
  return (← order? a b).any op.holds

def negate : Value → Except Fault Value
  | .number n => .ok (.number n.neg)
  | _ => .error .operandNotNumber

end Value

end Mudscript
