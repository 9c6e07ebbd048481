import Mudscript.Machine.Call

/-!
# Objects at work

Construction, properties and method calls. The object under construction is on top of the stack
whenever one of its members is declared.
-/

namespace Mudscript.Exec

def expectObject (v : Value) (property : String) : Exec ObjectId :=
  match v with
  | .object o => return o
  | v => fail (.notAnObject property v.type)

def objectName (o : ObjectId) : Exec String := return Objects.nameOf (← get).objects o

def undefinedProperty {α : Type} (o : ObjectId) (property : String) : Exec α := do
  fail (.undefinedProperty (← objectName o) property)

def modifyObject (o : ObjectId) (f : Object → Object) : Exec Unit :=
  modify fun m => { m with objects := m.objects.modify o f }

/-! ### Construction -/

def construct (frame : Frame) (name : String) : Exec Unit := do
  note (.constructing name)
  modify fun m =>
    { m with
      objects := m.objects.push { name }
      stack := m.stack.setIfInBounds frame.base (.object m.objects.size) }

def constructing : Exec ObjectId := do
  match ← peek 0 with
  | .object o => return o
  | v => fail (.memberOfNonObject v.type)

def link (o parent : ObjectId) : Exec Unit := do
  match Objects.parent? (← get).objects o with
  | some old => fail (.alreadyInherits (← objectName o) (← objectName old))
  | none => modify fun m => { m with objects := m.objects.link o parent }

def inherit (parent : Value) : Exec Unit := do
  match parent with
  | .object p =>
    let o ← constructing
    note (.inherit (← objectName o) (← objectName p))
    link o p
  | v => fail (.inheritNonObject v.type)

def defineField (name : String) (v : Value) : Exec Unit := do
  modifyObject (← constructing) (·.putField name v)

def defineMethod (name : String) (v : Value) : Exec Unit := do
  match v with
  | .closure c => modifyObject (← constructing) (·.putMethod name c)
  | v => fail (.methodNotFunction name v.type)

/-! ### Properties -/

def getProperty (receiver : Value) (name : String) : Exec Value := do
  let o ← expectObject receiver name
  match Objects.property? (← get).objects o name with
  | some v => return v
  | none => undefinedProperty o name

/-- Sets a field that some object of the chain declares. -/
def setProperty (receiver : Value) (name : String) (v : Value) : Exec Unit := do
  let o ← expectObject receiver name
  match Objects.holder? (← get).objects o name with
  | some holder => modifyObject holder (·.putField name v)
  | none => undefinedProperty o name

/-- Calls a member of the value below the arguments. A method keeps that value as its receiver, and
any other member takes its place and is called like any value. -/
def invoke (name : String) (arguments : Nat) : Exec Unit := do
  match ← getProperty (← peek arguments) name with
  | .closure c =>
    if c.routine.kind = .method then callClosure c arguments
    else callMember (.closure c)
  | v => callMember v
where
  callMember (v : Value) : Exec Unit := do
    setSlot ((← get).stack.size - 1 - arguments) v
    callValue arguments

/-! ### Parents -/

/-- The parent of the object that the running routine was written for. -/
def parentOf (frame : Frame) (receiver : Value) : Exec ObjectId := do
  match receiver with
  | .object o =>
    let routine := frame.closure.routine
    let objects : Objects := (← get).objects
    let defining := (objects.named? o (routine.owner.getD routine.name)).getD o
    match objects.parent? defining with
    | some parent => return parent
    | none => fail (.noParent (← objectName defining))
  | v => fail (.superOfNonObject v.type)

/-- Calls a method of the object on top of the stack with the receiver below the arguments. -/
def invokeParent (name : String) (arguments : Nat) : Exec Unit := do
  let parent ← expectObject (← pop) name
  match Objects.method? (← get).objects parent name with
  | some method => callClosure method arguments
  | none => undefinedProperty parent name

end Mudscript.Exec
