import Mudscript.Draft

/-!
# Scopes

Every function under compilation has a scope: the locals that are visible, which are exactly the
values its call has on the stack, the variables it captures from around it, and its draft. Slot 0
belongs to the call itself. Locals are listed innermost first, so a local's slot is the number of
locals behind it, and leaving a block drops a front part of the list.

A name that no local has is looked for in the enclosing functions. The function that declares it
marks the local as captured, and every function in between captures it in turn.
-/

namespace Mudscript

/-- A local variable. Its depth is `-1` until its initializer is compiled. -/
structure Local where
  name : String
  depth : Int
  captured : Bool := false
  deriving DecidableEq

def Local.undefinedDepth : Int := -1

def Local.isDefined (l : Local) : Bool := l.depth ≠ undefinedDepth

/-- The instruction that takes a local off the stack. A captured one moves to its closures. -/
def Local.leave (l : Local) : Instruction := if l.captured then .closeUpvalue else .pop

inductive ScopeFault
  | duplicateLocal | ownInitializer | tooManyLocals | tooManyUpvalues
  deriving DecidableEq, Repr

def ScopeFault.message : ScopeFault → String
  | .duplicateLocal => "Already a variable with this name in this scope."
  | .ownInitializer => "Can't read local variable in its own initializer."
  | .tooManyLocals => "Too many local variables in function."
  | .tooManyUpvalues => "Too many closure variables in function."

/-- The most locals, counting slot 0, and the most captures a function can have. -/
def maxSlots : Nat := 256

/-- The name under which methods and object units see their receiver. -/
def receiverName : String := "this"

/-- An enclosing loop: where `continue` goes, how deep the blocks around the loop are nested, and
the operands of the `break` jumps that wait for the end of the loop. -/
structure Loop where
  continueAt : Nat
  depth : Int
  breaks : Array Nat := #[]

structure Scope where
  kind : RoutineKind
  name : String
  owner : Option String
  arity : Nat := 0
  draft : Draft := {}
  locals : List Local
  captures : Array Capture := #[]
  depth : Int := 0
  loops : List Loop := []

namespace Scope

/-- The scope of a function that is about to be compiled. Slot 0 is the receiver in methods and
object units, and has no name elsewhere. -/
def start (kind : RoutineKind) (name : String) (owner : Option String) : Scope :=
  let slotName := match kind with
    | .method | .object => receiverName
    | .script | .function => ""
  { kind, name, owner, locals := [⟨slotName, 0, false⟩] }

def toRoutine (s : Scope) : Routine :=
  ⟨s.kind, s.name, s.arity, s.captures.size, s.owner, s.draft.toCode⟩

def emit (s : Scope) (i : Instruction) (line : Nat) : Scope :=
  { s with draft := s.draft.emit i line }

def emitAll (s : Scope) (is : List Instruction) (line : Nat) : Scope :=
  is.foldl (fun s i => s.emit i line) s

/-! ### Blocks -/

def beginBlock (s : Scope) : Scope := { s with depth := s.depth + 1 }

def deeperThan (s : Scope) (depth : Int) : List Local := s.locals.takeWhile (depth < ·.depth)

/-- Takes the locals deeper than `depth` off the stack without forgetting them, for a jump out of
nested blocks. -/
def discardAbove (s : Scope) (depth : Int) (line : Nat) : Scope :=
  s.emitAll ((s.deeperThan depth).map Local.leave) line

/-- Leaves a block: its locals are taken off the stack and forgotten. -/
def endBlock (s : Scope) (line : Nat) : Scope :=
  let depth := s.depth - 1
  { s.discardAbove depth line with depth, locals := s.locals.dropWhile (depth < ·.depth) }

/-! ### Locals -/

def ofBlock (s : Scope) : List Local :=
  s.locals.takeWhile fun l => !l.isDefined || s.depth ≤ l.depth

/-- Adds a local to the current block. It stays undefined until `define`. -/
def declare (s : Scope) (name : String) : Except ScopeFault Scope :=
  if s.ofBlock.any (·.name = name) then .error .duplicateLocal
  else if s.locals.length = maxSlots then .error .tooManyLocals
  else .ok { s with locals := ⟨name, Local.undefinedDepth, false⟩ :: s.locals }

/-- Makes the newest local visible. Outside every block there are no locals. -/
def define (s : Scope) : Scope :=
  if s.depth = 0 then s
  else
    match s.locals with
    | [] => s
    | l :: rest => { s with locals := { l with depth := s.depth } :: rest }

def slot? (s : Scope) (name : String) : Except ScopeFault (Option Nat) :=
  match s.locals.dropWhile (·.name ≠ name) with
  | [] => .ok none
  | l :: outer => if l.isDefined then .ok (some outer.length) else .error .ownInitializer

def markCaptured (s : Scope) (slot : Nat) : Scope :=
  { s with
    locals := s.locals.modify (s.locals.length - 1 - slot) fun l => { l with captured := true } }

/-- The index of a capture, which is added unless the function has it already. -/
def addCapture (s : Scope) (c : Capture) : Except ScopeFault Nat × Scope :=
  match s.captures.findIdx? (· = c) with
  | some index => (.ok index, s)
  | none =>
    if s.captures.size = maxSlots then (.error .tooManyUpvalues, s)
    else (.ok s.captures.size, { s with captures := s.captures.push c })

/-- Looks a name up in the enclosing functions, innermost first, and captures what is found. -/
def captureFrom (s : Scope) (name : String) :
    List Scope → Except ScopeFault (Option Nat) × Scope × List Scope
  | [] => (.ok none, s, [])
  | e :: outer =>
    match e.slot? name with
    | .error fault => (.error fault, s, e :: outer)
    | .ok (some slot) =>
      let (index, s) := s.addCapture ⟨true, slot⟩
      (index.map some, s, e.markCaptured slot :: outer)
    | .ok none =>
      match e.captureFrom name outer with
      | (.error fault, e, outer) => (.error fault, s, e :: outer)
      | (.ok none, e, outer) => (.ok none, s, e :: outer)
      | (.ok (some above), e, outer) =>
        let (index, s) := s.addCapture ⟨false, above⟩
        (index.map some, s, e :: outer)

end Scope

/-- The function under compilation and the functions it is written in, innermost first. -/
structure Scopes where
  current : Scope
  enclosing : List Scope := []

namespace Scopes

def enter (s : Scopes) (kind : RoutineKind) (name : String) (owner : Option String) : Scopes :=
  ⟨.start kind name owner, s.current :: s.enclosing⟩

def leave? (s : Scopes) : Option Scopes :=
  match s.enclosing with
  | [] => none
  | outer :: rest => some ⟨outer, rest⟩

/-- The index under which the current function captures a variable of an enclosing one. -/
def upvalue? (s : Scopes) (name : String) : Except ScopeFault (Option Nat) × Scopes :=
  let (index, current, enclosing) := s.current.captureFrom name s.enclosing
  (index, ⟨current, enclosing⟩)

def inObject (s : Scopes) : Bool := (s.current :: s.enclosing).any (·.kind = .object)

end Scopes

end Mudscript
