import Mudscript.Compile.Script

/-!
# Events

What the compiler and the machine note in passing. Events have no effect on a program; a host may
show them. Each renders as its level, a message, and named details.
-/

namespace Mudscript

inductive Level
  | trace | debug | warn
  deriving DecidableEq, Repr

def Level.name : Level → String
  | .trace => "TRACE"
  | .debug => "DEBUG"
  | .warn => "WARN"

def Level.rank : Level → Nat
  | .trace => 0
  | .debug => 1
  | .warn => 2

inductive Event
  | compilingScript (name : String)
  | compilingObject (path : String)
  | compileFailed (name : String) (errors : Nat)
  | compileFinished (name : String) (bytes constants : Nat)
  | cacheHit (path : String)
  | cacheMiss (path : String)
  | objectFailed (path : String) (errors : Nat)
  | constructing (object : String)
  | inherit (object parent : String)
  | reset
  /-- An instruction about to be executed, as listed, with the number of calls and of values. -/
  | instruction (listed : String) (depth stack : Nat)
  deriving DecidableEq

namespace Event

def level : Event → Level
  | .instruction .. => .trace
  | .objectFailed .. => .warn
  | _ => .debug

def text : Event → String
  | .compilingScript name => "compiling script name=" ++ name
  | .compilingObject path => "compiling object path=" ++ path
  | .compileFailed name errors => "compile failed name=" ++ name ++ " errors=" ++ toString errors
  | .compileFinished name bytes constants =>
    "compile finished name=" ++ name ++ " bytes=" ++ toString bytes ++ " constants=" ++
      toString constants
  | .cacheHit path => "object cache hit path=" ++ path
  | .cacheMiss path => "object cache miss path=" ++ path
  | .objectFailed path errors =>
    "object failed to compile path=" ++ path ++ " errors=" ++ toString errors
  | .constructing object => "constructing object object=" ++ object
  | .inherit object parent => "inherit object=" ++ object ++ " parent=" ++ parent
  | .reset => "vm reset"
  | .instruction listed depth stack =>
    listed ++ " depth=" ++ toString depth ++ " stack=" ++ toString stack

def render (e : Event) : String := e.level.name ++ " " ++ e.text

def ofCompilation (name : String) : Except CompileErrors Routine → Event
  | .ok r => .compileFinished name r.code.size r.code.constants.size
  | .error errors => .compileFailed name errors.size

def ofScript (name : String) (result : Except CompileErrors Routine) : List Event :=
  [.compilingScript name, ofCompilation name result]

def ofObject (path : String) (result : Except CompileErrors Routine) : List Event :=
  [.compilingObject path, ofCompilation path result]

end Event

end Mudscript
