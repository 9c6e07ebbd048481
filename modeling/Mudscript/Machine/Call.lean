import Mudscript.Machine.State

/-!
# Calls

A call finds its function below the arguments on the stack. Functions of the language get a frame;
functions of the host run at once and leave their result in place of the call.
-/

namespace Mudscript.Exec

/-- Calls a function of the language, whose arguments are on the stack. What is below them becomes
slot 0. -/
def callClosure (c : Closure) (arguments : Nat) : Exec Unit := do
  if arguments ≠ c.routine.arity then fail (.wrongArity c.routine.arity arguments)
  if (← get).settings.maxFrames ≤ (← get).frames.size then fail .stackOverflow
  modify fun m => { m with frames := m.frames.push ⟨c, 0, m.stack.size - arguments - 1⟩ }

def newClosure (routine : Routine) : Exec Closure := return ⟨← freshSerial, routine, #[]⟩

/-- Runs the program in a slot: a function of it takes the slot, and the object it constructs takes
it later. -/
def callProgram (slot : Nat) : Exec Unit := do
  match (← get).stack[slot]? with
  | some (.program p) =>
    let c ← newClosure p.routine
    setSlot slot (.closure c)
    callClosure c 0
  | _ => fail .noProgram

/-! ### Programs -/

/-- A load failed: for an inheriting object that is a fault of its own, and for a function of the
host the message of its failure. -/
def failLoad {α : Type} (caller : Option String) (e : LoadError) : Exec α :=
  match caller with
  | none => fail (.load e)
  | some name => fail (.native name e.message)

def receive (caller : Option String) (loading : Library.Loading) : Exec Unit := do
  modify fun m =>
    { m with
      library := loading.library
      events := m.events ++ loading.events
      nextSerial := m.nextSerial + 1 }
  match loading.result with
  | .ok p => push (.program p)
  | .error e => failLoad caller e

def load (caller : Option String) (path : String) : Exec Unit := do
  match (← get).library.ask path (← get).nextSerial with
  | .loaded loading => receive caller loading
  | .needsFile key file => throw (.request (.source key file caller))

/-- Goes on with a load when the text of its file is there. -/
def receiveSource (caller : Option String) (key : String) (source : Except FileError String) :
    Exec Unit := do
  receive caller ((← get).library.enroll key (← get).nextSerial source)

/-! ### Functions of the host -/

def checkArity (arity : Arity) (arguments : Nat) : Exec Unit :=
  match arity with
  | .exactly n => if arguments = n then pure () else fail (.wrongArity n arguments)
  | .atMost n => if arguments ≤ n then pure () else fail (.tooManyArguments n arguments)

def popMany (count : Nat) : Exec (Array Value) :=
  modifyGet fun m =>
    let height := m.stack.size - count
    (m.stack.extract height m.stack.size, { m with stack := m.stack.shrink height })

def print (text : String) : Exec Unit := modify fun m => { m with output := m.output ++ text }

/-- What a function of the host does with its arguments. It pushes its result. -/
def perform (n : Native) (arguments : Array Value) : Exec Unit := do
  let argument := fun (i : Nat) => arguments[i]?.getD .nil
  match n.action with
  | .clock => throw (.request .time)
  | .print ending =>
    match arguments[0]? with
    | some v => print ((← get).display v ++ ending)
    | none => print ending
    push .nil
  | .load =>
    match argument 0 with
    | .text path => load (some n.name) path
    | _ => fail (.native n.name "expects an object path string")
  | .countArguments => push (.number (.ofNat arguments.size))
  | .argument i => push (argument i)
  | .fail => fail (.native n.name ((← get).display (argument 0)))
  | .backtrace => push (.text (← get).backtrace.render)
  | .stackHeight => push (.number (.ofNat (← get).stack.size))
  | .openCells => push (.number (.ofNat (← get).cells.opened.length))

def callNative (n : Native) (arguments : Nat) : Exec Unit := do
  checkArity n.arity arguments
  let values ← popMany arguments
  discard pop
  perform n values

def callValue (arguments : Nat) : Exec Unit := do
  match ← peek arguments with
  | .closure c => callClosure c arguments
  | .native n => callNative n arguments
  | .program _ =>
    if arguments = 0 then callProgram ((← get).stack.size - 1)
    else fail (.wrongArity 0 arguments)
  | v => fail (.notCallable v.type)

/-! ### Making functions -/

def captureCell (frame : Frame) (c : Capture) : Exec CellId :=
  if c.fromLocal then
    modifyGet fun m =>
      let (id, cells) := m.cells.capture (frame.base + c.index)
      (id, { m with cells })
  else return frame.closure.cells[c.index]?.getD 0

def captureCells (frame : Frame) : List Capture → Array CellId → Exec (Array CellId)
  | [], cells => return cells
  | c :: captures, cells => do captureCells frame captures (cells.push (← captureCell frame c))

def makeClosure (frame : Frame) (index : Nat) (captures : List Capture) : Exec Unit := do
  match frame.code.routineAt? index with
  | none => fail .closureOfNonFunction
  | some routine =>
    let cells ← captureCells frame captures #[]
    push (.closure ⟨← freshSerial, routine, cells⟩)

end Mudscript.Exec
