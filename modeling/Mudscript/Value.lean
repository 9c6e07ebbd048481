import Mudscript.Number.Decimal
import Mudscript.Routine

/-!
# Values

What a running program computes with. Texts, numbers and booleans are what they look like. Objects
are places in the machine's store. Functions and programs are immutable, but each of them is a thing
of its own: two functions made at different times differ even if they do the same, so they carry the
serial number they were made with, and equality looks at nothing else.
-/

namespace Mudscript

abbrev ObjectId := Nat

abbrev CellId := Nat

/-- A function: a routine with the variables it captured. -/
structure Closure where
  serial : Nat
  routine : Routine
  cells : Array CellId := #[]

/-- The routine of an object unit that has not been run yet. -/
structure Program where
  serial : Nat
  routine : Routine

inductive Action
  /-- The time in seconds since the machine was started. -/
  | clock
  /-- Prints its argument, if it has one, and the given text behind it. -/
  | print (ending : String)
  | load
  | countArguments
  | argument (position : Nat)
  /-- Fails with its argument as the message. -/
  | fail
  | backtrace
  | stackHeight
  /-- The number of captured variables that are still on the stack. -/
  | openCells
  deriving DecidableEq

inductive Arity
  | exactly (count : Nat)
  | atMost (count : Nat)
  deriving DecidableEq

structure Native where
  name : String
  arity : Arity
  action : Action
  deriving DecidableEq

def Closure.describe (c : Closure) : String := "<fn " ++ c.routine.name ++ ">"

/-- A count, with a sign in front if fewer arguments will do. -/
def Arity.describe : Arity → String
  | .exactly n => toString n
  | .atMost n => "-" ++ toString n

def Native.describe (n : Native) : String :=
  "<native fn " ++ n.name ++ "/" ++ n.arity.describe ++ ">"

inductive Value
  | nil
  | bool (b : Bool)
  | number (n : Number)
  | text (s : String)
  | object (o : ObjectId)
  | closure (c : Closure)
  | native (n : Native)
  | program (p : Program)

instance : Inhabited Value := ⟨.nil⟩

inductive ValueType
  | nil | bool | number | string | object | function | native | program
  deriving DecidableEq, Repr

def ValueType.name : ValueType → String
  | .nil => "nil"
  | .bool => "bool"
  | .number => "number"
  | .string => "string"
  | .object => "object"
  | .function => "function"
  | .native => "native function"
  | .program => "program"

/-- A number as programs print it: a whole number below `10 ^ 15` as an integer, any other in
full. -/
def Number.display (n : Number) : String :=
  match n.whole? with
  | some k => if k.natAbs < Nat.pow 10 15 then toString k else n.text
  | none => n.text

namespace Value

def type : Value → ValueType
  | .nil => .nil
  | .bool _ => .bool
  | .number _ => .number
  | .text _ => .string
  | .object _ => .object
  | .closure _ => .function
  | .native _ => .native
  | .program _ => .program

/-- Only nil and `false` do not hold. -/
def isTruthy : Value → Bool
  | .nil | .bool false => false
  | _ => true

def equals : Value → Value → Bool
  | .nil, .nil => true
  | .bool a, .bool b => a = b
  | .number a, .number b => a.equals b
  | .text a, .text b => a = b
  | .object a, .object b => a = b
  | .closure a, .closure b => a.serial = b.serial
  | .native a, .native b => a = b
  | .program a, .program b => a.serial = b.serial
  | _, _ => false

/-- A value as programs print it, given the names of objects. -/
def display (objectName : ObjectId → String) : Value → String
  | .nil => "nil"
  | .bool b => if b then "true" else "false"
  | .number n => n.display
  | .text s => s
  | .object o => "<object " ++ objectName o ++ ">"
  | .closure c => if c.routine.name.isEmpty then "<fn>" else "<fn " ++ c.routine.name ++ ">"
  | .native n => "<native fn " ++ n.name ++ ">"
  | .program p => "<program " ++ p.routine.name ++ ">"

end Value

end Mudscript
