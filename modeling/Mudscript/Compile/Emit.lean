import Mudscript.Compile.State

/-!
# Writing code

All code goes to the draft of the current function, on the line of the token taken last.
-/

namespace Mudscript.Compile

def modifyScope (f : Scope → Scope) : Compile Unit :=
  onScopes fun c => ((), { c.scopes with current := f c.scopes.current })

def onDraft {α : Type} (f : Draft → α × Draft) : Compile α :=
  onScopes fun c =>
    let (result, draft) := f c.scopes.current.draft
    (result, { c.scopes with current := { c.scopes.current with draft } })

def scope : Compile Scope := return (← read).scopes.current

def here : Compile Nat := return (← scope).draft.size

def emit (i : Instruction) : Compile Unit :=
  onScopes fun c => ((), { c.scopes with current := c.scopes.current.emit i c.previous.line })

/-- Returns nil, as a body does that ends without a `return`. -/
def emitReturnNil : Compile Unit := do
  emit .pushNil
  emit .ret

/-! ### Constants -/

/-- The pool entry of a constant; `0` after a report that the pool is full. -/
def constant (value : Constant) : Compile Nat := do
  match ← onDraft (·.addConstant value) with
  | .ok index => return index
  | .error fault =>
    mistake (.code fault)
    return 0

def nameConstant (name : String) : Compile Nat := constant (.text name)

def emitConstant (value : Constant) : Compile Unit := do emit (.constant (← constant value))

/-! ### Jumps -/

/-- Writes a forward jump whose target is not known yet, and answers where its operand is. -/
def emitJump (jump : Nat → Instruction) : Compile Nat := do
  emit (jump maxWord)
  return (← here) - 2

def patchJump (operand : Nat) : Compile Unit := do
  match ← onDraft (·.patchJump operand) with
  | some fault => mistake (.code fault)
  | none => pure ()

def emitLoop (start : Nat) : Compile Unit := do
  match (← scope).draft.loopDistance start with
  | .ok distance => emit (.loop distance)
  | .error fault =>
    mistake (.code fault)
    emit (.loop 0)

/-! ### Functions -/

def enterFunction (kind : RoutineKind) (name : String) : Compile Unit :=
  (onScopes fun c => ((), c.scopes.enter kind name c.owner)).as (.enter kind)

/-- Finishes the current function and makes a closure of it in the enclosing one. -/
def leaveFunction : Compile Unit := do
  emitReturnNil
  let finished ← scope
  (onScopes fun c => ((), c.scopes.leave?.getD c.scopes)).as .leave
  let index ← constant (.routine finished.toRoutine)
  emit (.closure index finished.captures.toList)

/-! ### Variables -/

/-- How a name is reached: the operand is a slot, a capture, or the constant that names it. -/
inductive Access
  | local_ (slot : Nat)
  | upvalue (index : Nat)
  | global (name : Nat)
  | property (name : Nat)

/-- Resolves a name: a local, else a captured variable, else a property of the receiver in an object
unit and a global variable elsewhere. -/
def resolve (name : String) : Compile (Except ScopeFault Access) := do
  match (← scope).slot? name with
  | .error fault => return .error fault
  | .ok (some slot) => return .ok (.local_ slot)
  | .ok none =>
    match ← (onScopes fun c => c.scopes.upvalue? name).as (.resolve name) with
    | .error fault => return .error fault
    | .ok (some index) => return .ok (.upvalue index)
    | .ok none =>
      let index ← nameConstant name
      if (← read).scopes.inObject then return .ok (.property index) else return .ok (.global index)

def emitReceiver : Compile Unit := do
  match ← resolve receiverName with
  | .ok (.local_ slot) => emit (.getLocal slot)
  | .ok (.upvalue index) => emit (.getUpvalue index)
  | .ok _ => mistake .thisOutsideObject
  | .error fault => mistake (.scope fault)

def declare (name : String) : Compile Unit := do
  match (← scope).declare name with
  | .ok s => (modifyScope fun _ => s).as (.declare name)
  | .error fault => mistake (.scope fault)

def define : Compile Unit := (modifyScope Scope.define).as .define

def beginBlock : Compile Unit := (modifyScope Scope.beginBlock).as .beginBlock

def endBlock : Compile Unit :=
  (onScopes fun c => ((), { c.scopes with current := c.scopes.current.endBlock c.previous.line })).as .endBlock

end Mudscript.Compile
