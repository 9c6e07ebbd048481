import Mathlib
import Mudscript.Instruction
import Mudscript.Value

/-!
# The layout of routines

A layout of a routine says what the values of a call look like before each of its instructions: how
many there are, how many of them, from slot 0 on, are locals, which locals closures may have
captured, and for some instructions what type of value is on top. A routine with a layout can be
executed without looking at anything else: `Routine.Layout` is a condition on one instruction and its
successors at a time, and what it asks of an instruction is that its operands make sense and that it
finds the values it takes above the locals.

Two rules are about captured locals. A local that may have been captured is left only by closing it,
and slot 0 of an object unit, which holds the object under construction, is never assigned to, not
even by a function that captured it.
-/

namespace Mudscript

structure Shape where
  /-- How many values there are, from slot 0 on. -/
  height : Nat
  /-- How many of them are locals. -/
  locals : Nat
  /-- The locals that may have been captured. -/
  captured : Set Nat
  /-- The type of the topmost value, where something depends on it. -/
  top : Option ValueType

namespace Shape

structure Proper (σ : Shape) : Prop where
  locals_pos : 0 < σ.locals
  locals_le : σ.locals ≤ σ.height
  captured_lt : ∀ k ∈ σ.captured, k < σ.locals

/-- What is known at one place may be passed on to another: it can be forgotten that a local is not
captured, or what is on top, and a value can become a local. -/
structure Flows (σ τ : Shape) : Prop where
  height_eq : τ.height = σ.height
  locals_le : σ.locals ≤ τ.locals
  captured_subset : σ.captured ⊆ τ.captured
  top_eq : τ.top = none ∨ τ.top = σ.top

theorem Flows.refl (σ : Shape) : σ.Flows σ := ⟨rfl, Nat.le_refl _, subset_rfl, .inr rfl⟩

theorem Flows.trans {σ τ υ : Shape} (h : σ.Flows τ) (h' : τ.Flows υ) : σ.Flows υ := by
  refine ⟨h'.height_eq.trans h.height_eq, h.locals_le.trans h'.locals_le,
    h.captured_subset.trans h'.captured_subset, ?_⟩
  rcases h'.top_eq with hnone | heq
  · exact .inl hnone
  · rw [heq]
    exact h.top_eq

def entry (arity : Nat) : Shape := ⟨arity + 1, arity + 1, ∅, none⟩

end Shape

namespace Instruction

def taken : Instruction → Nat
  | .constant _ | .pushNil | .pushTrue | .pushFalse | .getLocal _ | .getGlobal _ | .getUpvalue _
  | .jump _ | .loop _ | .closure _ _ | .object _ => 0
  | .pop | .dup | .setLocal _ | .defineGlobal _ | .setGlobal _ | .setUpvalue _ | .closeUpvalue
  | .getProperty _ | .not | .negate | .jumpIfFalse _ | .ret | .compile | .inherit | .field _
  | .method _ | .super => 1
  | .setProperty _ | .equal | .notEqual | .greater | .greaterEqual | .less | .lessEqual
  | .add | .subtract | .multiply | .divide | .modulo => 2
  | .call n | .invoke _ n => n + 1
  | .superInvoke _ n => n + 2

def given : Instruction → Nat
  | .pop | .defineGlobal _ | .closeUpvalue | .jump _ | .loop _ | .ret | .object _ | .inherit
  | .field _ | .method _ => 0
  | .dup => 2
  | _ => 1

/-- The type of the value an instruction leaves on top, where something depends on it. -/
def result? (constants : Array Constant) : Instruction → Option ValueType
  | .constant index =>
    match constants[index]? with
    | some (.text _) => some .string
    | _ => none
  | .closure _ _ => some .function
  | .compile => some .object
  | _ => none

def captures : Instruction → List Capture
  | .closure _ captures => captures
  | _ => []

def after (constants : Array Constant) (σ : Shape) (i : Instruction) : Shape where
  height := σ.height - i.taken + i.given
  locals := min σ.locals (σ.height - i.taken)
  captured := {k | (k ∈ σ.captured ∧ ¬ (i = .closeUpvalue ∧ k + 1 = σ.height)) ∨
    ⟨true, k⟩ ∈ i.captures}
  top := i.result? constants

def near? (next : Nat) : Instruction → Option Nat
  | .jump _ | .loop _ | .ret => none
  | _ => some next

def far? (next : Nat) : Instruction → Option Nat
  | .jump distance | .jumpIfFalse distance => some (next + distance)
  | .loop distance => some (next - distance)
  | _ => none

end Instruction

/-! ### Code as a list of instructions -/

namespace Code

/-- The offsets at which the code splits into instructions, from its start to its end. -/
inductive Boundary (code : Code) : Nat → Prop
  | start : Boundary code 0
  | next {offset} : Boundary code offset → offset < code.size → Boundary code (code.nextOffset offset)

structure At (code : Code) (offset : Nat) (i : Instruction) : Prop where
  boundary : code.Boundary offset
  lt_size : offset < code.size
  instruction : code.instructionAt? offset = some i

end Code

/-- A routine assigns to one of its captured variables, itself or in a function written in it. -/
inductive Routine.Assigns : Routine → Nat → Prop
  | here {r offset index} : r.code.At offset (.setUpvalue index) → Routine.Assigns r index
  | inside {r q offset entry index j captures} :
      r.code.At offset (.closure entry captures) → r.code.routineAt? entry = some q →
      captures[j]? = some ⟨false, index⟩ → Routine.Assigns q j → Routine.Assigns r index

/-! ### What a layout asks of an instruction -/

def Constant.IsText (c : Constant) : Prop := ∃ s, c = .text s

def Constant.IsLiteral (c : Constant) : Prop := (∃ n, c = .number n) ∨ c.IsText

/-- The entry of the pool at an index, if there is one, has a property. -/
def Routine.HasConstant (r : Routine) (index : Nat) (p : Constant → Prop) : Prop :=
  ∃ c, r.code.constants[index]? = some c ∧ p c

/-- What a capture of a closure over `q`, made in `r`, may refer to: a capture of `r`, or a local; the
value of a named function becomes a local when its closure is made, and may be captured by the function
itself. The receiver of an object unit is captured only by functions that never assign to it. -/
def Capture.Allowed (r q : Routine) (σ : Shape) (j : Nat) (c : Capture) : Prop :=
  if c.fromLocal then
    (c.index < σ.locals ∨ c.index = σ.height ∧ σ.locals = σ.height ∧ q.kind = .function ∧ q.name ≠ "") ∧
      (c.index = 0 → r.kind = .method ∨ r.kind = .object) ∧ (r.kind = .object → ¬ q.Assigns j)
  else c.index < r.upvalueCount

namespace Instruction

/-- The operands of an instruction make sense. -/
def OperandsAllowed (r : Routine) (σ : Shape) : Instruction → Prop
  | .constant index => r.HasConstant index Constant.IsLiteral
  | .getLocal slot => slot < σ.locals
  | .setLocal slot => slot < σ.locals ∧ r.kind ≠ .object
  | .getUpvalue index | .setUpvalue index => index < r.upvalueCount
  | .getGlobal name | .defineGlobal name | .setGlobal name | .getProperty name | .setProperty name
  | .invoke name _ | .superInvoke name _ | .object name | .field name | .method name =>
    r.HasConstant name Constant.IsText
  | .closure index captures => ∃ q, r.code.constants[index]? = some (.routine q) ∧
      captures.length = q.upvalueCount ∧ ∀ j (c : Capture), captures[j]? = some c → c.Allowed r q σ j
  | _ => True

/-- The values an instruction takes are there, above the locals, and of the right type. -/
def ValuesAllowed (r : Routine) (σ : Shape) : Instruction → Prop
  | .pop => 1 < σ.height ∧ σ.height - 1 ∉ σ.captured
  | .closeUpvalue => 1 < σ.height
  | .ret => if r.kind = .object then σ.height = 1 else σ.locals < σ.height
  | .object _ => r.kind = .object
  | .compile => σ.locals < σ.height ∧ r.kind = .object ∧ σ.top = some .string
  | .inherit => r.kind = .object ∧ σ.locals = 1 ∧ σ.height = 2 ∧ σ.top = some .object
  | .field _ => r.kind = .object ∧ σ.locals = 1 ∧ σ.height = 2
  | .method _ => r.kind = .object ∧ σ.locals = 1 ∧ σ.height = 2 ∧ σ.top = some .function
  | i => σ.locals + i.taken ≤ σ.height

structure Allowed (r : Routine) (σ : Shape) (i : Instruction) : Prop where
  operands : i.OperandsAllowed r σ
  values : i.ValuesAllowed r σ

end Instruction

structure Routine.Layout (r : Routine) (shape : Nat → Shape) : Prop where
  /-- The code splits into whole instructions, and there is one. -/
  splits : r.code.Boundary r.code.size
  size_pos : 0 < r.code.size
  whole : ∀ offset, r.code.Boundary offset → offset < r.code.size →
    ∃ i, r.code.instructionAt? offset = some i ∧ offset + i.size ≤ r.code.size
  entry : (Shape.entry r.arity).Flows (shape 0)
  proper : ∀ offset i, r.code.At offset i → (shape offset).Proper
  allowed : ∀ offset i, r.code.At offset i → i.Allowed r (shape offset)
  /-- Wherever execution goes on there is an instruction. -/
  near : ∀ offset i target, r.code.At offset i → i.near? (offset + i.size) = some target →
    target < r.code.size ∧ (i.after r.code.constants (shape offset)).Flows (shape target)
  far : ∀ offset i target, r.code.At offset i → i.far? (offset + i.size) = some target →
    r.code.Boundary target ∧ target < r.code.size ∧
      (i.after r.code.constants (shape offset)).Flows (shape target)
  /-- A jump back does not go beyond the start. -/
  back : ∀ offset distance, r.code.At offset (.loop distance) →
    distance ≤ offset + (Instruction.loop distance).size
  /-- An object unit constructs its object before anything else. -/
  constructs : r.kind = .object → ∃ name, r.code.At 0 (.object name)

inductive Routine.Within : Routine → Routine → Prop
  | self {r} : Routine.Within r r
  | inside {r q p : Routine} {index : Nat} : r.code.constants[index]? = some (.routine q) →
      Routine.Within q p → Routine.Within r p

/-- A routine that has a layout, together with all routines written in it. -/
def Routine.Verified (r : Routine) : Prop := ∀ q, r.Within q → ∃ shape, q.Layout shape

end Mudscript
