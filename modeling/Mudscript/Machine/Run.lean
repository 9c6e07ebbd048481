import Mudscript.Machine.Execute

/-!
# Running programs

A run alternates between the machine, which takes steps, and its host, which answers requests. The
host's own effects are those of a monad: a host without effects gives a run that is a function of
the machine.

A run that fails leaves the machine as good as new but for its globals, its objects and its library.
A run gets fuel, of which it uses some for every answer and every thousand steps; without it, it is
given up.
-/

namespace Mudscript

structure Host (μ : Type → Type) where
  textOf : String → μ (Except FileError String)
  time : μ Number
  /-- Shows what was printed since it was last asked to, or leaves it with the machine. -/
  relay : Machine → μ Machine

/-- A host without effects: a tree of files, and a clock that stands still. What is printed stays
with the machine. -/
def Host.ofFiles (files : Files) (time : Number) : Host Id where
  textOf := files.read
  time := time
  relay := pure

inductive Failure
  | compile (errors : CompileErrors)
  | load (error : LoadError)
  | runtime (fault : Fault) (trace : Backtrace)
  | unreadable (error : FileError)
  | exhausted

namespace Failure

def message : Failure → String
  | .compile errors => errors.render
  | .load error => error.message
  | .runtime fault trace => fault.message ++ "\n" ++ trace.render
  | .unreadable error => "IO error: " ++ error.message
  | .exhausted => "The run was given up."

def isRuntime : Failure → Bool
  | .runtime .. => true
  | _ => false

end Failure

inductive Ending
  | finished (v : Value)
  | failed (f : Fault)
  | exhausted

variable {μ : Type → Type} [Monad μ]

namespace Host

def answer (host : Host μ) : Request → μ (Exec Unit)
  | .source key file caller => return Exec.receiveSource caller key (← host.textOf file)
  | .time => return Exec.push (.number (← host.time))

@[specialize]
def drive (host : Host μ) : Nat → Exec Unit → Machine → μ (Ending × Machine)
  | 0, _, m => return (.exhausted, m)
  | fuel + 1, action, m => do
    match (action *> Exec.steps 1000) m with
    | .ok () m => host.drive fuel (pure ()) (← host.relay m)
    | .error (.finished v) m => return (.finished v, ← host.relay m)
    | .error (.fault f) m => return (.failed f, ← host.relay m)
    | .error (.request r) m => host.drive fuel (← host.answer r) (← host.relay m)

/-- Runs the machine after a first action. A fault resets it. -/
def run (host : Host μ) (fuel : Nat) (action : Exec Unit) (m : Machine) :
    μ (Except Failure Value × Machine) := do
  match ← host.drive fuel action m with
  | (.finished v, m) => return (.ok v, m)
  | (.failed f, m) => return (.error (.runtime f m.backtrace), m.reset)
  | (.exhausted, m) => return (.error .exhausted, m)

end Host

/-- Calls a routine without arguments. The outermost call may always be made. -/
def Exec.enter (routine : Routine) : Exec Unit := do
  let c ← newClosure routine
  modify fun m =>
    { m with
      stack := m.stack.push (.closure c)
      frames := m.frames.push ⟨c, 0, m.stack.size⟩ }

namespace Machine

def interpret (m : Machine) (host : Host μ) (fuel : Nat) (script : Routine) :
    μ (Except Failure Value × Machine) :=
  host.run fuel (Exec.enter script) m

def runScript (m : Machine) (host : Host μ) (fuel : Nat) (name source : String) :
    μ (Except Failure Value × Machine) :=
  let compiled := compileScript name source
  let m := { m with events := m.events ++ Event.ofScript name compiled }
  match compiled with
  | .error errors => return (.error (.compile errors), m)
  | .ok script => m.interpret host fuel script

def runFile (m : Machine) (host : Host μ) (fuel : Nat) (path : String) :
    μ (Except Failure Value × Machine) := do
  match ← host.textOf path with
  | .error e => return (.error (.unreadable e), m)
  | .ok source => m.runScript host fuel path source

def load (m : Machine) (host : Host μ) (path : String) :
    μ (Except LoadError Program × Machine) := do
  let loading ←
    match m.library.ask path m.nextSerial with
    | .loaded loading => pure loading
    | .needsFile key file => pure (m.library.enroll key m.nextSerial (← host.textOf file))
  return (loading.result,
    { m with
      library := loading.library
      events := m.events ++ loading.events
      nextSerial := m.nextSerial + 1 })

def loadObject (m : Machine) (host : Host μ) (fuel : Nat) (path : String) :
    μ (Except Failure ObjectId × Machine) := do
  match ← m.load host path with
  | (.error e, m) => return (.error (.load e), m)
  | (.ok program, m) =>
    let start : Exec Unit := do
      Exec.push (.program program)
      Exec.callProgram ((← get).stack.size - 1)
    match ← host.run fuel start m with
    | (.ok (.object o), m) => return (.ok o, m)
    | (.ok v, m) => return (.error (.runtime (.programReturned v.type) []), m)
    | (.error f, m) => return (.error f, m)

/-- Calls the value below the topmost values with those as arguments, without running it. -/
def call (m : Machine) (host : Host μ) (arguments : Nat) : μ (Except Fault Unit × Machine) := do
  match Exec.callValue arguments m with
  | .error (.request r) m => return settle ((← host.answer r) m)
  | result => return settle result
where
  settle : EStateM.Result Stop Machine Unit → Except Fault Unit × Machine
    | .error (.fault f) m => (.error f, m)
    | .error _ m => (.ok (), m)
    | .ok () m => (.ok (), m)

end Machine

end Mudscript
