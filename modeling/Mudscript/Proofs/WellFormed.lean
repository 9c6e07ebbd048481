import Mudscript.Proofs.Coding.Units

/-!
# Compiled code is well formed

`Routine.WellFormed` is what a reader of bytecode without any checks relies on, with the stack heights
of the instructions as the one thing it does not see in the bytes. It says nothing of locals and
captures as such, so it is weaker than a layout, and easier to read: that every routine of a compiled
unit is well formed is the part of its layout that is about one call and its heights.
-/

namespace Mudscript

variable {shape : Nat → Shape}

def Routine.IsCompiled (r : Routine) : Prop :=
  (∃ name source, compileScript name source = .ok r) ∨ ∃ path source, compileObject path source = .ok r

theorem Routine.IsCompiled.logged {r : Routine} (h : r.IsCompiled) : r.Logged := by
  rcases h with ⟨name, source, hscript⟩ | ⟨path, source, hobject⟩
  · exact logged_of_compileScript hscript
  · exact logged_of_compileObject hobject

theorem Routine.IsCompiled.verified {r : Routine} (h : r.IsCompiled) : r.Verified := by
  rcases h with ⟨name, source, h⟩ | ⟨path, source, h⟩
  · exact verified_of_compileScript h
  · exact verified_of_compileObject h

/-- Where a capture of a closure over `q` finds its variable, at a height in `r`: in a slot below the
height, among the captures of `r`, or, if `q` is a named function, where its own value is about to be. -/
def Capture.Fits (r q : Routine) (height : Nat) (c : Capture) : Prop :=
  if c.fromLocal then c.index < height ∨ (c.index = height ∧ q.kind = .function ∧ q.name ≠ "")
  else c.index < r.upvalueCount

namespace Instruction

/-- The operands of an instruction refer to something that is there and of the right kind. -/
def Fits (r : Routine) (height : Nat) : Instruction → Prop
  | .constant index => r.HasConstant index Constant.IsLiteral
  | .getLocal slot | .setLocal slot => slot < height
  | .getUpvalue index | .setUpvalue index => index < r.upvalueCount
  | .getGlobal name | .defineGlobal name | .setGlobal name | .getProperty name | .setProperty name
  | .invoke name _ | .superInvoke name _ | .object name | .field name | .method name =>
    r.HasConstant name Constant.IsText
  | .closure index captures => ∃ q, r.code.constants[index]? = some (.routine q) ∧
      captures.length = q.upvalueCount ∧ ∀ c ∈ captures, c.Fits r q height
  | _ => True

/-- Where execution can go on, given the offset behind the instruction. -/
def Continues (i : Instruction) (next target : Nat) : Prop :=
  i.near? next = some target ∨ i.far? next = some target

end Instruction

/-- Code that splits into instructions whose operands make sense, where every way leads to an
instruction, and where each instruction has one height, whichever way leads to it. -/
structure Routine.WellFormed (r : Routine) (height : Nat → Nat) : Prop where
  splits : r.code.Boundary r.code.size
  whole : ∀ offset, r.code.Boundary offset → offset < r.code.size →
    ∃ i, r.code.instructionAt? offset = some i ∧ offset + i.size ≤ r.code.size
  starts : 0 < r.code.size ∧ height 0 = r.arity + 1
  operands : ∀ offset i, r.code.At offset i → i.Fits r (height offset)
  /-- What is taken off the stack is there, and slot 0 stays until an object unit returns it. -/
  takes : ∀ offset i, r.code.At offset i →
    i.taken < height offset ∨ (i = .ret ∧ r.kind = .object ∧ height offset = 1)
  /-- A jump back does not go beyond the start of the code. -/
  back : ∀ offset distance, r.code.At offset (.loop distance) →
    distance ≤ offset + (Instruction.loop distance).size
  continues : ∀ offset i target, r.code.At offset i → i.Continues (offset + i.size) target →
    (∃ j, r.code.At target j) ∧ height target = height offset - i.taken + i.given

section

variable {r : Routine} {σ : Shape} {i : Instruction}

theorem Instruction.Allowed.fits (h : i.Allowed r σ) (hproper : σ.Proper) : i.Fits r σ.height := by
  have hoperands := h.operands
  have hle := hproper.locals_le
  cases i with
  | getLocal slot => exact Nat.lt_of_lt_of_le hoperands hle
  | setLocal slot => exact Nat.lt_of_lt_of_le hoperands.1 hle
  | closure index captures =>
    obtain ⟨q, hget, hlength, hcaptures⟩ := hoperands
    refine ⟨q, hget, hlength, fun c hc => ?_⟩
    obtain ⟨j, hj⟩ := List.getElem?_of_mem hc
    have hallowed := hcaptures j c hj
    unfold Capture.Allowed at hallowed
    unfold Capture.Fits
    split
    · rename_i hlocal
      rw [if_pos hlocal] at hallowed
      rcases hallowed.1 with hlt | ⟨heq, _, hkind, hname⟩
      · exact .inl (Nat.lt_of_lt_of_le hlt hle)
      · exact .inr ⟨heq, hkind, hname⟩
    · rename_i hlocal
      rw [if_neg hlocal] at hallowed
      exact hallowed
  | _ => exact hoperands

theorem Instruction.Allowed.taken_lt (h : i.Allowed r σ) (hproper : σ.Proper) :
    i.taken < σ.height ∨ (i = .ret ∧ r.kind = .object ∧ σ.height = 1) := by
  have hvalues := h.values
  have hpos := hproper.locals_pos
  have hle := hproper.locals_le
  cases i with
  | ret =>
    change if r.kind = .object then σ.height = 1 else σ.locals < σ.height at hvalues
    by_cases hkind : r.kind = .object
    · rw [if_pos hkind] at hvalues
      exact .inr ⟨rfl, hkind, hvalues⟩
    · rw [if_neg hkind] at hvalues
      exact .inl (Nat.lt_of_le_of_lt hpos hvalues)
  | pop => exact .inl hvalues.1
  | closeUpvalue => exact .inl hvalues
  | object name => exact .inl (Nat.lt_of_lt_of_le hpos hle)
  | compile => exact .inl (Nat.lt_of_le_of_lt hpos hvalues.1)
  | inherit | method _ =>
    obtain ⟨_, _, hheight, _⟩ := hvalues
    exact .inl (hheight ▸ Nat.lt_succ_self 1)
  | field _ =>
    obtain ⟨_, _, hheight⟩ := hvalues
    exact .inl (hheight ▸ Nat.lt_succ_self 1)
  | _ => exact .inl (Nat.lt_of_lt_of_le (Nat.lt_add_of_pos_left hpos) hvalues)

/-- Wherever execution goes on, there is an instruction, and what is known there is no more than what
is known behind the instruction that led to it. -/
theorem Routine.Layout.continues (h : r.Layout shape) {offset target : Nat}
    (hi : r.code.At offset i) (hcontinues : i.Continues (offset + i.size) target) :
    (∃ j, r.code.At target j) ∧ (i.after r.code.constants (shape offset)).Flows (shape target) := by
  have hat : r.code.Boundary target → target < r.code.size → ∃ j, r.code.At target j := by
    intro hboundary hlt
    obtain ⟨j, hj, _⟩ := h.whole target hboundary hlt
    exact ⟨j, hboundary, hlt, hj⟩
  rcases hcontinues with hnear | hfar
  · obtain ⟨hlt, hflows⟩ := h.near offset i target hi hnear
    have hnext : r.code.nextOffset offset = target := by
      rw [Code.nextOffset, hi.instruction, Instruction.near?_eq hnear]
    exact ⟨hat (hnext ▸ .next hi.boundary hi.lt_size) hlt, hflows⟩
  · obtain ⟨hboundary, hlt, hflows⟩ := h.far offset i target hi hfar
    exact ⟨hat hboundary hlt, hflows⟩

theorem Routine.Layout.wellFormed (h : r.Layout shape) : r.WellFormed fun offset => (shape offset).height := by
  refine ⟨h.splits, h.whole, ⟨h.size_pos, h.entry.height_eq⟩, ?_, ?_, h.back, ?_⟩
  · exact fun offset i hat => (h.allowed offset i hat).fits (h.proper offset i hat)
  · exact fun offset i hat => (h.allowed offset i hat).taken_lt (h.proper offset i hat)
  · intro offset i target hi hcontinues
    obtain ⟨hat, hflows⟩ := h.continues hi hcontinues
    exact ⟨hat, hflows.height_eq⟩

end

/-- Every routine of a compiled unit, at any depth, is well formed. -/
theorem compiled_wellFormed {r q : Routine} (h : r.IsCompiled) (hq : r.Within q) : ∃ height, q.WellFormed height := by
  obtain ⟨shape, hlayout⟩ := h.verified q hq
  exact ⟨_, hlayout.wellFormed⟩

set_option maxRecDepth 20000 in
/-- A loop with a break and a closure over one of its locals. -/
theorem compiled_wellFormed_loop :
    ∃ r, compileScript "main" "while(a){var x=a;if(x)break;b=function(){return x;};}" = .ok r ∧
      ∀ q, r.Within q → ∃ height, q.WellFormed height := by
  have hok : (compileScript "main" "while(a){var x=a;if(x)break;b=function(){return x;};}").isOk := by cbv
  cases h : compileScript "main" "while(a){var x=a;if(x)break;b=function(){return x;};}" with
  | error e =>
    rw [h] at hok
    cases hok
  | ok r => exact ⟨r, rfl, fun q hq => compiled_wellFormed (.inl ⟨_, _, h⟩) hq⟩

end Mudscript
