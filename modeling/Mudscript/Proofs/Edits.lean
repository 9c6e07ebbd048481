import Mathlib
import Mudscript.Compile.Script

/-!
# Changes of the scopes

A compilation that makes no mistake is a sequence of changes to its scopes: what each of them is, apart from
the tokens, the recovery from mistakes and the bound on nesting.
-/

namespace Mudscript

/-- The names a source text can spell: not the empty name, and not the name of the receiver. -/
def IsName (x : String) : Prop := x ≠ "" ∧ x ≠ receiverName

namespace Scopes

def onCurrent (s : Scopes) (f : Scope → Scope) : Scopes := { s with current := f s.current }

def withDraft (s : Scopes) (d : Draft) : Scopes := s.onCurrent fun scope => { scope with draft := d }

def emit (s : Scopes) (i : Instruction) (line : Nat) : Scopes := s.onCurrent (·.emit i line)

def here (s : Scopes) : Nat := s.current.draft.size

def pool? (s : Scopes) (k : Constant) : Option (Nat × Scopes) :=
  match s.current.draft.addConstant k with
  | (.ok index, d) => some (index, s.withDraft d)
  | (.error _, _) => none

/-! ### Loops -/

def addBreak (s : Scopes) (operand : Nat) : Scopes :=
  s.onCurrent fun scope =>
    match scope.loops with
    | [] => scope
    | l :: outer => { scope with loops := { l with breaks := l.breaks.push operand } :: outer }

/-! ### Blocks and locals -/

def beginBlock (s : Scopes) : Scopes := s.onCurrent Scope.beginBlock

def endBlock (s : Scopes) (line : Nat) : Scopes := s.onCurrent (·.endBlock line)

def discardAbove (s : Scopes) (depth : Int) (line : Nat) : Scopes :=
  s.onCurrent (·.discardAbove depth line)

def declare? (s : Scopes) (name : String) : Option Scopes :=
  match s.current.declare name with
  | .ok scope => some (s.onCurrent fun _ => scope)
  | .error _ => none

def define (s : Scopes) : Scopes := s.onCurrent Scope.define

def countParameter (s : Scopes) : Scopes :=
  s.onCurrent fun scope => { scope with arity := scope.arity + 1 }

def left (s : Scopes) : Scopes := s.leave?.getD s

def AtGlobalLevel (s : Scopes) : Prop := s.current.depth = 0 ∧ s.current.kind = .script

theorem declare?_eq_some {s s' : Scopes} {name : String} (h : s.declare? name = some s') :
    s.current.locals.length ≠ maxSlots ∧ s' = s.onCurrent fun scope =>
      { scope with locals := ⟨name, Local.undefinedDepth, false⟩ :: scope.locals } := by
  rw [declare?, Scope.declare] at h
  by_cases hname : s.current.ofBlock.any (·.name = name)
  · simp [hname] at h
  · by_cases hfull : s.current.locals.length = maxSlots
    · simp [hname, hfull] at h
    · simp only [hname, hfull] at h
      exact ⟨hfull, (Option.some.inj h).symm⟩

theorem define_arity (s : Scopes) : s.define.current.arity = s.current.arity := by
  show s.current.define.arity = s.current.arity
  rw [Scope.define]
  split
  · rfl
  · split <;> rfl

end Scopes

namespace Compile.Access

/-- The instruction that reads a variable. A property needs its receiver first. -/
def get : Access → Instruction
  | .local_ slot => .getLocal slot
  | .upvalue index => .getUpvalue index
  | .global name => .getGlobal name
  | .property name => .getProperty name

def set : Access → Instruction
  | .local_ slot => .setLocal slot
  | .upvalue index => .setUpvalue index
  | .global name => .setGlobal name
  | .property name => .setProperty name

def isProperty : Access → Bool
  | .property _ => true
  | _ => false

end Compile.Access

open Compile (Access)

/-- How a name is resolved, and what becomes of the scopes: captures may be added on the way, and the
name of a global variable or a property enters the pool. -/
inductive Resolves (s : Scopes) (name : String) : Access → Scopes → Prop
  | local_ {slot} : s.current.slot? name = .ok (some slot) → Resolves s name (.local_ slot) s
  | upvalue {index s'} : s.current.slot? name = .ok none → s.upvalue? name = (.ok (some index), s') →
      Resolves s name (.upvalue index) s'
  | property {index s1 s'} : s.current.slot? name = .ok none → s.upvalue? name = (.ok none, s1) →
      s1.pool? (.text name) = some (index, s') → s'.inObject = true → Resolves s name (.property index) s'
  | global {index s1 s'} : s.current.slot? name = .ok none → s.upvalue? name = (.ok none, s1) →
      s1.pool? (.text name) = some (index, s') → s'.inObject = false → Resolves s name (.global index) s'

end Mudscript
