import Mudscript.Compile.Error

/-!
# What is done to the scopes

A compilation changes its scopes many times before it ends. So that it can be said what holds at each of these
times and not only at the end, the parts of the compiler keep the steps they take on record. The record is a
ghost: it is there for reasoning, and nothing of it is left when the compiler runs.
-/

namespace Mudscript

/-- A value of which only the properties are there when the program runs, that is to say nothing. -/
structure Ghost (α : Type) where
  is : α → Prop
  unique : ∃ a, is = (· = a)

namespace Ghost

variable {α : Type}

noncomputable def value (g : Ghost α) : α := g.unique.choose

theorem is_eq (g : Ghost α) : g.is = (· = g.value) := g.unique.choose_spec

theorem is_value (g : Ghost α) : g.is g.value := by rw [g.is_eq]

def of (a : α) : Ghost α := ⟨(· = a), a, rfl⟩

@[simp] theorem value_of (a : α) : (of a).value = a := (of a).is_value

theorem ext {g g' : Ghost α} (h : g.value = g'.value) : g = g' := by
  have his : g.is = g'.is := by rw [g.is_eq, g'.is_eq, h]
  cases g
  cases g'
  cases his
  rfl

def append (g g' : Ghost (List α)) : Ghost (List α) := ⟨(· = g.value ++ g'.value), _, rfl⟩

@[simp] theorem value_append (g g' : Ghost (List α)) : (g.append g').value = g.value ++ g'.value :=
  (g.append g').is_value

end Ghost

namespace Scopes

inductive Change
  | enter (kind : RoutineKind)
  | leave
  | beginBlock
  | endBlock
  | declare (name : String)
  | define
  | resolve (name : String)
  /-- The code is written that takes the locals deeper than `depth` off the stack. -/
  | discard (depth : Int)
  /-- Something else is written, or a loop begins or ends. -/
  | write

structure Step where
  change : Change
  before : Scopes
  after : Scopes

/-- Steps that lead from one state of the scopes to another. -/
def Joined (s : Scopes) : List Step → Scopes → Prop
  | [], s' => s' = s
  | step :: steps, s' => step.before = s ∧ Joined step.after steps s'

theorem Joined.append {s s' s'' : Scopes} {steps steps' : List Step} (h : s.Joined steps s')
    (h' : s'.Joined steps' s'') : s.Joined (steps ++ steps') s'' := by
  induction steps generalizing s with
  | nil => exact (show s' = s from h) ▸ h'
  | cons step steps ih => exact ⟨h.1, ih h.2⟩

end Scopes

end Mudscript
