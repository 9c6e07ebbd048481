import Mudscript.Cell
import Mudscript.Machine.Fault
import Mudscript.Object
import Mudscript.Settings

/-!
# The state of the machine

The machine has a stack of values and a stack of calls. A call owns the values from its base on:
slot 0 is the function or the receiver, the arguments follow, then locals and intermediate values.

Executing an instruction changes the state and may stop the run: with its result, with a fault, or
with a request for something that only the world outside knows. A stop keeps the state as it is at
that moment, so the backtrace and the captured variables are those of the faulty instruction.
-/

namespace Mudscript

/-- A call under way: the next instruction is at `position`, and slot 0 at `base`. -/
structure Frame where
  closure : Closure
  position : Nat
  base : Nat

def Frame.code (f : Frame) : Code := f.closure.routine.code

def Frame.traceLine (f : Frame) : TraceLine :=
  ⟨f.code.lineAt (f.position - 1), f.closure.routine.frameName⟩

structure Machine where
  settings : Settings
  library : Library
  globals : Std.HashMap String Value := ∅
  objects : Objects := #[]
  cells : Cells := {}
  stack : Array Value := #[]
  /-- Outermost first. -/
  frames : Array Frame := #[]
  output : String := ""
  events : Array Event := #[]
  /-- The serial number of the next function or program. -/
  nextSerial : Nat := 0

inductive Request
  /-- The text of the file that holds the source of the object kept under `key`. The function of the
  host that asked is named, if it was one. -/
  | source (key file : String) (caller : Option String)
  | time

inductive Stop
  | finished (v : Value)
  | fault (f : Fault)
  | request (r : Request)

abbrev Exec := EStateM Stop Machine

namespace Machine

def backtrace (m : Machine) : Backtrace := (m.frames.toList.map Frame.traceLine).reverse

def note (m : Machine) (e : Event) : Machine := { m with events := m.events.push e }

def display (m : Machine) (v : Value) : String := v.display (Objects.nameOf m.objects)

/-- Forgets all calls and values. Captured variables keep what they have; globals, objects and the
library stay. -/
def reset (m : Machine) : Machine :=
  { m with
    cells := m.cells.closeFrom 0 m.stack
    stack := #[]
    frames := #[]
    events := m.events.push .reset }

end Machine

namespace Exec

def fail {α : Type} (f : Fault) : Exec α := throw (.fault f)

def note (e : Event) : Exec Unit := modify (·.note e)

def push (v : Value) : Exec Unit := modify fun m => { m with stack := m.stack.push v }

/-- Takes the value on top of the stack, which is nil if there is none. -/
def pop : Exec Value :=
  modifyGet fun m => (m.stack.back?.getD .nil, { m with stack := m.stack.pop })

def peek (depth : Nat) : Exec Value :=
  return (← get).stack[(← get).stack.size - 1 - depth]?.getD .nil

def setSlot (slot : Nat) (v : Value) : Exec Unit :=
  modify fun m => { m with stack := m.stack.setIfInBounds slot v }

def freshSerial : Exec Nat :=
  modifyGet fun m => (m.nextSerial, { m with nextSerial := m.nextSerial + 1 })

/-- Moves the innermost call to a position in its code. -/
def moveTo (position : Nat) : Exec Unit :=
  modify fun m =>
    { m with frames := m.frames.modify (m.frames.size - 1) fun f => { f with position } }

end Exec

end Mudscript
