import Mudscript.Machine.Arithmetic
import Mudscript.Machine.Member
import Mudscript.Routine.Listing

/-!
# Executing instructions

One step of the machine: it takes the instruction the innermost call has come to, moves the call
behind it, and executes it. A program on top of the stack is run before anything else, so whatever
asked for an object finds the object where it left the program.
-/

namespace Mudscript.Exec

def lift {α : Type} : Except Fault α → Exec α
  | .ok a => return a
  | .error f => fail f

/-- Puts the result of an operator in the place of its two operands. -/
def binary (f : Value → Value → Except Fault Value) : Exec Unit := do
  let b ← pop
  let a ← pop
  push (← lift (f a b))

def compare (op : Comparison) : Exec Unit := binary fun a b => .bool <$> a.compare op b

def add : Exec Unit := do
  let b ← pop
  let a ← pop
  push (← lift (a.add (← get).display b))

/-! ### Variables -/

def pushConstant (c : Constant) : Exec Unit := do
  match c with
  | .number n => push (.number n)
  | .text s => push (.text s)
  | .routine r => push (.program ⟨← freshSerial, r⟩)

def getGlobal (name : String) : Exec Unit := do
  match (← get).globals[name]? with
  | some v => push v
  | none => fail (.undefinedVariable name)

def defineGlobal (name : String) (v : Value) : Exec Unit :=
  modify fun m => { m with globals := m.globals.insert name v }

/-- Only a variable that is defined can be set. -/
def setGlobal (name : String) (v : Value) : Exec Unit := do
  if (← get).globals.contains name then defineGlobal name v else fail (.undefinedVariable name)

def readCell (id : CellId) : Exec Value := return (← get).cells.read id (← get).stack

def writeCell (id : CellId) (v : Value) : Exec Unit :=
  modify fun m =>
    let (cells, stack) := m.cells.write id v m.stack
    { m with cells, stack }

def closeFrom (height : Nat) : Exec Unit :=
  modify fun m => { m with cells := m.cells.closeFrom height m.stack }

/-! ### Steps -/

/-- Leaves a call: its result takes the place of all its values. Captured variables are closed when
the result is already off the stack. The outermost call ends the run. -/
def leave (frame : Frame) : Exec Unit := do
  let result ← pop
  closeFrom frame.base
  modify fun m => { m with frames := m.frames.pop, stack := m.stack.shrink frame.base }
  if (← get).frames.isEmpty then throw (.finished result) else push result

def execute (frame : Frame) (next : Nat) (i : Instruction) : Exec Unit := do
  let name := frame.code.nameAt
  let cell := fun (index : Nat) => frame.closure.cells[index]?.getD 0
  match i with
  | .constant index => pushConstant (frame.code.constants[index]?.getD (.text ""))
  | .pushNil => push .nil
  | .pushTrue => push (.bool true)
  | .pushFalse => push (.bool false)
  | .pop => discard pop
  | .dup => push (← peek 0)
  | .getLocal slot => push (Cells.slotValue (← get).stack (frame.base + slot))
  | .setLocal slot => setSlot (frame.base + slot) (← peek 0)
  | .getGlobal n => getGlobal (name n)
  | .defineGlobal n => defineGlobal (name n) (← pop)
  | .setGlobal n => setGlobal (name n) (← peek 0)
  | .getUpvalue index => push (← readCell (cell index))
  | .setUpvalue index => writeCell (cell index) (← peek 0)
  | .closeUpvalue =>
    closeFrom ((← get).stack.size - 1)
    discard pop
  | .getProperty n => push (← getProperty (← pop) (name n))
  | .setProperty n =>
    let v ← pop
    setProperty (← pop) (name n) v
    push v
  | .equal => binary fun a b => .ok (.bool (a.equals b))
  | .notEqual => binary fun a b => .ok (.bool (!a.equals b))
  | .greater => compare .greater
  | .greaterEqual => compare .greaterEqual
  | .less => compare .less
  | .lessEqual => compare .lessEqual
  | .add => add
  | .subtract => binary (Value.arithmetic .subtract)
  | .multiply => binary (Value.arithmetic .multiply)
  | .divide => binary (Value.arithmetic .divide)
  | .modulo => binary (Value.arithmetic .modulo)
  | .not => push (.bool !(← pop).isTruthy)
  | .negate => push (← lift (← pop).negate)
  | .jump distance => moveTo (next + distance)
  | .jumpIfFalse distance => if (← peek 0).isTruthy then pure () else moveTo (next + distance)
  | .loop distance => moveTo (next - distance)
  | .call arguments => callValue arguments
  | .invoke n arguments => invoke (name n) arguments
  | .superInvoke n arguments => invokeParent (name n) arguments
  | .closure index captures => makeClosure frame index captures
  | .ret => leave frame
  | .object n => construct frame (name n)
  | .compile =>
    match ← pop with
    | .text path => load none path
    | v => fail (.pathNotText v.type)
  | .inherit => inherit (← pop)
  | .field n => defineField (name n) (← pop)
  | .method n => defineMethod (name n) (← pop)
  | .super => push (.object (← parentOf frame (← pop)))

def startProgram : Exec Unit := do
  if let some (.program _) := (← get).stack.back? then callProgram ((← get).stack.size - 1)

def traceInstruction (frame : Frame) : Exec Unit := do
  if (← get).settings.traceExecution then
    note (.instruction (frame.code.lineText frame.position) (← get).frames.size (← get).stack.size)

/-- Executes the instruction the innermost call has come to. A run ends where its code does. -/
def step : Exec Unit := do
  startProgram
  match (← get).frames.back? with
  | none => throw (.finished .nil)
  | some frame =>
    if frame.code.size ≤ frame.position then throw (.finished .nil)
    traceInstruction frame
    match frame.code.fetch? frame.position with
    | none => fail (.unknownOperation (frame.code.byteAt frame.position))
    | some (i, next) =>
      moveTo next
      execute frame next i

def steps : Nat → Exec Unit
  | 0 => pure ()
  | n + 1 => do
    step
    steps n

end Mudscript.Exec
