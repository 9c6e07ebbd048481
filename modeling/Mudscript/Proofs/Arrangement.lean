import Mudscript.Proofs.Soundness

/-!
# The arrangement of calls and values

Between two instructions the stack is laid out call by call: the innermost call has as many values as
the layout of its routine says at the place it has come to, and a call that waits for another one will
have, when that returns, as many as its layout says behind the call. An open cell belongs to a local
of one of the calls, and slot 0 of an object unit holds its object.

In the middle of an instruction some values are still to be taken off the stack, and others to be put
on it. `Machine.Midway` says what the stack looks like at such a point, and each of the small actions
takes one such point to the next.
-/

namespace Mudscript

variable {id : CellId} {slot : Nat}

structure Layouts where
  shape : Routine → Nat → Shape
  layout : ∀ r, (∃ σ, Routine.Layout r σ) → r.Layout (shape r)

open Classical in
noncomputable def Layouts.some : Layouts where
  shape r := if h : ∃ σ, Routine.Layout r σ then h.choose else fun _ => .entry 0
  layout r h := by
    rw [dif_pos h]
    exact h.choose_spec

/-- What is known of the values of a call at the place it has come to. -/
def Layouts.shapeOf (L : Layouts) (f : Frame) : Shape := L.shape f.closure.routine f.position

/-- A call is at an instruction, and its values end at a height of the stack. -/
structure Frame.Rests (L : Layouts) (f : Frame) (height : Nat) : Prop where
  layout : ∃ σ, f.closure.routine.Layout σ
  instruction : ∃ i, f.code.At f.position i
  height_eq : height = f.base + (L.shapeOf f).height

/-- Calls, innermost first, each with its values on top of those of the next. What a call waits for is
the result of the one above it; an object is what only the routine of an object unit returns. -/
inductive Stacked (L : Layouts) (a : Activity) : List Frame → Nat → Prop
  | outermost {f height} : f.Rests L height → f.base = 0 → (a = .construction → f.IsObject) → Stacked L a [f] height
  | called {f g rest height} : f.Rests L height → g.base < f.base →
      (∀ t, (L.shapeOf g).top = some t → t = .object ∧ f.IsObject) →
      Stacked L a (g :: rest) (f.base + 1) → Stacked L a (f :: g :: rest) height

/-- A slot is among the values of the call at an index, or would be if there were more of them. -/
structure Covers (frames : Array Frame) (slot index : Nat) (f : Frame) : Prop where
  call : frames[index]? = some f
  base_le : f.base ≤ slot
  inner : ∀ j g, index < j → frames[j]? = some g → slot < g.base

/-- If the cell of a slot was there at that moment, the slot was among the values of the same call. -/
def Moment.Knows (past : Moment) (f : Frame) (index slot : Nat) (id : CellId) : Prop :=
  id < past.cells.all.size →
    ∃ g, Covers past.frames slot index g ∧ g.closure = f.closure ∧ g.base = f.base

/-- The innermost call that a slot can belong to may have captured it, and is the one that it belonged
to as long as it had this cell. -/
def Owned (past : Moment) (L : Layouts) : List Frame → Nat → CellId → Prop
  | [], _, _ => False
  | f :: rest, slot, id =>
    if f.base ≤ slot then
      slot - f.base ∈ (L.shapeOf f).captured ∧ past.Knows f rest.length slot id
    else Owned past L rest slot id

namespace Machine

def calls (m : Machine) : List Frame := m.frames.toList.reverse

/-- In the middle of an instruction, `taken` values are still to be taken off the stack and `given`
are to be put on it, the last one of the given type if there is one. -/
structure Midway (past : Moment) (L : Layouts) (a : Activity) (m : Machine) (taken given : Nat)
    (type : Option ValueType) :
    Prop where
  stacked : Stacked L a m.calls (m.stack.size - taken + given)
  base_lt : ∀ f rest, m.calls = f :: rest → f.base + taken < m.stack.size
  owned : ∀ slot id, (slot, id) ∈ m.cells.opened → slot + taken < m.stack.size ∧ Owned past L m.calls slot id
  built : ∀ f ∈ m.calls, f.IsObject → f.position ≠ 0 → ∃ o, m.stack[f.base]? = some (.object o)
  top : ∀ f rest, m.calls = f :: rest → (L.shapeOf f).top = none ∨ (L.shapeOf f).top = type

def Arranged (past : Moment) (L : Layouts) (a : Activity) (m : Machine) : Prop :=
  ∃ type, m.Midway past L a 0 0 type ∧ ∀ t, type = some t → ∃ v, m.stack.back? = some v ∧ v.type = t

/-! ### The list of calls -/

variable {m m' : Machine} {f g : Frame} {rest : List Frame}

theorem mem_calls : f ∈ m.calls ↔ f ∈ m.frames := by simp [calls]

theorem head?_calls : m.calls.head? = m.frames.back? := by
  rw [calls, List.head?_reverse, Array.getLast?_toList]

theorem calls_push : (m.withFrames (m.frames.push f)).calls = f :: m.calls := by
  simp [calls]

theorem exists_of_calls (h : m.calls = f :: rest) :
    ∃ frames : Array Frame, m.frames = frames.push f ∧ frames.toList.reverse = rest := by
  refine ⟨rest.reverse.toArray, ?_, by simp⟩
  have heq : m.frames.toList = rest.reverse ++ [f] := by
    rw [← List.reverse_reverse m.frames.toList]
    exact (congrArg List.reverse h).trans List.reverse_cons
  apply Array.toList_inj.mp
  simp [heq]

theorem calls_pop (h : m.calls = f :: rest) : (m.withFrames m.frames.pop).calls = rest := by
  obtain ⟨frames, hframes, rfl⟩ := exists_of_calls h
  simp [calls, hframes]

def goTo (m : Machine) (position : Nat) : Machine :=
  m.withFrames (m.frames.modify (m.frames.size - 1) fun f => { f with position })

theorem goTo_goTo (m : Machine) (position target : Nat) : (m.goTo position).goTo target = m.goTo target := by
  have hframes : ((m.goTo position).goTo target).frames = (m.goTo target).frames := by
    apply Array.ext_getElem?
    intro k
    simp only [goTo, withFrames_frames, Array.getElem?_modify, Array.size_modify]
    split <;> simp [Function.comp_def]
  show (m.goTo position).withFrames ((m.goTo position).goTo target).frames = _
  rw [hframes]
  rfl

theorem calls_goTo (h : m.calls = f :: rest) (position : Nat) :
    (m.goTo position).calls = { f with position } :: rest := by
  obtain ⟨frames, hframes, rfl⟩ := exists_of_calls h
  have heq : (m.goTo position).frames = frames.push { f with position } := by
    apply Array.ext_getElem?
    intro i
    rw [goTo, withFrames_frames, hframes, Array.getElem?_modify, Array.size_push, Nat.add_sub_cancel,
      Array.getElem?_push, Array.getElem?_push]
    by_cases hi : i = frames.size <;> simp [hi, eq_comm]
  rw [calls, heq]
  simp

end Machine

/-! ### Calls on top of each other -/

section

variable {past : Moment} {L : Layouts} {a : Activity} {f f' : Frame} {rest : List Frame}
  {height height' : Nat}

theorem Stacked.rests (h : Stacked L a (f :: rest) height) : f.Rests L height := by
  cases h with
  | outermost hrests => exact hrests
  | called hrests => exact hrests

theorem Stacked.base_lt (h : Stacked L a (f :: rest) height) : ∀ g ∈ rest, g.base < f.base := by
  generalize hcalls : f :: rest = calls at h
  induction h generalizing f rest with
  | outermost =>
    cases hcalls
    exact fun _ hg => nomatch hg
  | called _ hlt _ _ ih =>
    cases hcalls
    intro g hg
    rcases List.mem_cons.mp hg with rfl | hg
    · exact hlt
    · exact Nat.lt_trans (ih rfl g hg) hlt

theorem Stacked.moved (h : Stacked L a (f :: rest) height) (hclosure : f'.closure = f.closure)
    (hbase : f'.base = f.base) (hrests : f'.Rests L height') : Stacked L a (f' :: rest) height' := by
  have hobject : f'.IsObject = f.IsObject := by rw [Frame.IsObject, Frame.IsObject, hclosure]
  cases h with
  | outermost _ hzero hkind => exact .outermost hrests (hbase.trans hzero) (hobject ▸ hkind)
  | called _ hlt htop hrest =>
    exact .called hrests (hbase ▸ hlt) (hobject ▸ htop) (hbase ▸ hrest)

theorem owned_of_le (hle : f.base ≤ slot) : Owned past L (f :: rest) slot id ↔
      slot - f.base ∈ (L.shapeOf f).captured ∧ past.Knows f rest.length slot id := by
  rw [Owned, if_pos hle]

theorem owned_of_lt (hlt : slot < f.base) : Owned past L (f :: rest) slot id ↔ Owned past L rest slot id := by
  rw [Owned, if_neg (Nat.not_le.mpr hlt)]

end

/-- The locals that may have been captured are not taken off the stack but by closing them. -/
theorem Instruction.Allowed.captured_lt {r : Routine} {σ : Shape} {i : Instruction} (h : i.Allowed r σ)
    (hproper : σ.Proper) (hret : i ≠ .ret) {k : Nat} (hk : k ∈ σ.captured)
    (hclose : i = .closeUpvalue → k + 1 ≠ σ.height) : k + i.taken < σ.height := by
  have hlt := hproper.captured_lt k hk
  have hle := hproper.locals_le
  have hvalues := h.values
  cases i with
  | ret => exact absurd rfl hret
  | pop =>
    have hne : k ≠ σ.height - 1 := fun heq => hvalues.2 (heq ▸ hk)
    show k + 1 < σ.height
    omega
  | closeUpvalue =>
    have hne := hclose rfl
    show k + 1 < σ.height
    omega
  | object name => exact Nat.lt_of_lt_of_le hlt hle
  | compile =>
    have hlocals := hvalues.1
    show k + 1 < σ.height
    omega
  | inherit | method _ =>
    obtain ⟨_, hlocals, hheight, _⟩ := hvalues
    show k + 1 < σ.height
    omega
  | field _ =>
    obtain ⟨_, hlocals, hheight⟩ := hvalues
    show k + 1 < σ.height
    omega
  | _ => exact Nat.lt_of_lt_of_le (Nat.add_lt_add_right hlt _) hvalues

namespace Machine

variable {past : Moment} {L : Layouts} {a : Activity} {m m' : Machine} {f : Frame} {rest : List Frame} {i : Instruction}
  {taken given count target : Nat} {type : Option ValueType}

theorem Midway.rests (h : m.Midway past L a taken given type) (hcalls : m.calls = f :: rest) :
    f.Rests L (m.stack.size - taken + given) := by
  have hstacked := h.stacked
  rw [hcalls] at hstacked
  exact hstacked.rests

theorem Midway.layout (h : m.Midway past L a taken given type) (hcalls : m.calls = f :: rest) :
    f.closure.routine.Layout (L.shape f.closure.routine) := L.layout _ (h.rests hcalls).layout

theorem Midway.base_le (h : m.Midway past L a taken given type) (hcalls : m.calls = f :: rest) {g : Frame}
    (hg : g ∈ m.calls) : g.base ≤ f.base := by
  have hstacked := h.stacked
  rw [hcalls] at hstacked hg
  rcases List.mem_cons.mp hg with rfl | hg
  · exact Nat.le_refl _
  · exact Nat.le_of_lt (hstacked.base_lt g hg)

/-! ### Between two instructions -/

section

variable (h : m.Arranged past L a) (hcalls : m.calls = f :: rest)

include h hcalls

theorem Arranged.layout : f.closure.routine.Layout (L.shape f.closure.routine) := by
  obtain ⟨_, hmidway, _⟩ := h
  exact hmidway.layout hcalls

theorem Arranged.size_eq : m.stack.size = f.base + (L.shapeOf f).height := by
  obtain ⟨_, hmidway, _⟩ := h
  exact (hmidway.rests hcalls).height_eq

theorem Arranged.base_lt {g : Frame} (hg : g ∈ rest) : g.base < f.base := by
  obtain ⟨_, hmidway, _⟩ := h
  have hstacked := hmidway.stacked
  rw [hcalls] at hstacked
  exact hstacked.base_lt g hg

section

variable (hat : f.code.At f.position i)

include hat

theorem Arranged.allowed : i.Allowed f.closure.routine (L.shapeOf f) :=
  (h.layout hcalls).allowed f.position i hat

theorem Arranged.proper : (L.shapeOf f).Proper :=
  (h.layout hcalls).proper f.position i hat

theorem Arranged.built (hobject : f.IsObject) (hne : ∀ name, i ≠ .object name) :
    ∃ o, m.stack[f.base]? = some (.object o) := by
  have hposition : f.position ≠ 0 := by
    intro hzero
    obtain ⟨name, hfirst⟩ := (h.layout hcalls).constructs hobject
    have heq := hat.instruction
    rw [hzero, show f.code.instructionAt? 0 = _ from hfirst.instruction] at heq
    exact hne name (Option.some.inj heq).symm
  obtain ⟨_, hmidway, _⟩ := h
  exact hmidway.built f (hcalls ▸ List.mem_cons_self) hobject hposition

/-- The innermost call goes on to another instruction, of which it still has to do the work. -/
theorem Arranged.moved (hret : i ≠ .ret) (htarget : i.Continues (f.position + i.size) target)
    (hcalls' : m'.calls = { f with position := target } :: rest) (hsize : m'.stack.size = m.stack.size)
    (hopened : ∀ slot id, (slot, id) ∈ m'.cells.opened → (slot, id) ∈ m.cells.opened ∧
      (i = .closeUpvalue → slot + 1 < m.stack.size))
    (hbuilt : ∀ g ∈ m'.calls, g.IsObject → g.position ≠ 0 → ∃ o, m'.stack[g.base]? = some (.object o)) :
    m'.Midway past L a i.taken i.given (i.result? f.code.constants) := by
  have hproper := h.proper hcalls hat
  have hallowed := h.allowed hcalls hat
  have hheight := h.size_eq hcalls
  obtain ⟨htarget', hflows⟩ := (h.layout hcalls).continues hat htarget
  have htaken : i.taken < (L.shapeOf f).height := (hallowed.taken_lt hproper).resolve_right fun h => hret h.1
  obtain ⟨type, hmidway, _⟩ := h
  have hstacked := hmidway.stacked
  rw [hcalls] at hstacked
  have hheight' : (L.shapeOf { f with position := target }).height
      = (L.shapeOf f).height - i.taken + i.given := hflows.height_eq
  refine ⟨?_, ?_, ?_, hbuilt, ?_⟩
  · rw [hcalls']
    refine hstacked.moved rfl rfl ⟨hstacked.rests.layout, htarget', ?_⟩
    rw [hheight', hsize, hheight]
    show f.base + _ - i.taken + i.given = f.base + _
    omega
  · intro g rest' hcalls''
    rw [hcalls'] at hcalls''
    cases hcalls''
    show f.base + i.taken < m'.stack.size
    omega
  · intro slot id hmem
    obtain ⟨hold, hclose⟩ := hopened slot id hmem
    obtain ⟨hlt, howned⟩ := hmidway.owned slot id hold
    rw [hcalls] at howned
    rw [hcalls', hsize]
    by_cases hle : f.base ≤ slot
    · rw [owned_of_le hle] at howned
      have hkept : i = .closeUpvalue → slot - f.base + 1 ≠ (L.shapeOf f).height := by
        intro hi
        have := hclose hi
        omega
      have hcaptured := hallowed.captured_lt hproper hret howned.1 hkept
      refine ⟨by omega, (owned_of_le (f := { f with position := target }) hle).mpr ?_⟩
      exact ⟨hflows.captured_subset (.inl ⟨howned.1, fun hi => hkept hi.1 hi.2⟩), howned.2⟩
    · have hlt' : slot < f.base := Nat.lt_of_not_le hle
      rw [owned_of_lt hlt'] at howned
      exact ⟨by omega, (owned_of_lt (f := { f with position := target }) hlt').mpr howned⟩
  · intro g rest' hcalls''
    rw [hcalls'] at hcalls''
    cases hcalls''
    exact hflows.top_eq

theorem Arranged.built_moved (hobject : ∀ name, i ≠ .object name) (position : Nat) {g : Frame}
    (hg : g ∈ { f with position } :: rest) (hgobject : g.IsObject) (hposition : g.position ≠ 0) :
    ∃ o, m.stack[g.base]? = some (.object o) := by
  rcases List.mem_cons.mp hg with rfl | hg
  · have hobject' : f.IsObject := hgobject
    have hbuilt := h.built hcalls hat hobject' hobject
    exact hbuilt
  · obtain ⟨_, hmidway, _⟩ := h
    exact hmidway.built g (hcalls ▸ List.mem_cons_of_mem _ hg) hgobject hposition

theorem Arranged.goTo (hret : i ≠ .ret) (hclose : i ≠ .closeUpvalue) (hobject : ∀ name, i ≠ .object name)
    (htarget : i.Continues (f.position + i.size) target)
    (hcalls' : m'.calls = { f with position := target } :: rest) (hstack : m'.stack = m.stack)
    (hcells : m'.cells = m.cells) : m'.Midway past L a i.taken i.given (i.result? f.code.constants) := by
  refine h.moved hcalls hat hret htarget hcalls' (by rw [hstack])
    (fun slot id hmem => ⟨hcells ▸ hmem, fun hi => absurd hi hclose⟩) fun g hg hgobject hposition => ?_
  rw [hstack]
  exact h.built_moved hcalls hat hobject target (hcalls' ▸ hg) hgobject hposition

end

end

/-! ### In the middle of an instruction -/

theorem Midway.congr (h : m.Midway past L a taken given type) (hcalls : m'.calls = m.calls)
    (hstack : m'.stack = m.stack) (hcells : m'.cells = m.cells) : m'.Midway past L a taken given type := by
  refine ⟨?_, ?_, ?_, ?_, ?_⟩
  · rw [hcalls, hstack]
    exact h.stacked
  · rw [hcalls, hstack]
    exact h.base_lt
  · rw [hcalls, hstack, hcells]
    exact h.owned
  · rw [hcalls, hstack]
    exact h.built
  · rw [hcalls]
    exact h.top

theorem Midway.base_add_lt (h : m.Midway past L a taken given type) {g : Frame} (hg : g ∈ m.calls) :
    g.base + taken < m.stack.size := by
  cases hcalls : m.calls with
  | nil =>
    rw [hcalls] at hg
    cases hg
  | cons f rest =>
    have hle := h.base_le hcalls hg
    have hlt := h.base_lt f rest hcalls
    omega

theorem Midway.withStack {taken' given' : Nat} (h : m.Midway past L a taken given type) (stack : Array Value)
    (hheight : stack.size - taken' + given' = m.stack.size - taken + given)
    (hle : m.stack.size - taken ≤ stack.size - taken')
    (hkept : ∀ g ∈ m.calls, g.IsObject → stack[g.base]? = m.stack[g.base]?) :
    (m.withStack stack).Midway past L a taken' given' type := by
  refine ⟨?_, fun g rest hcalls => ?_, fun slot id hmem => ?_, fun g hg hobject hposition => ?_, h.top⟩
  · show Stacked L a m.calls (stack.size - taken' + given')
    rw [hheight]
    exact h.stacked
  · have hlt := h.base_lt g rest hcalls
    show g.base + taken' < stack.size
    omega
  · obtain ⟨hlt, howned⟩ := h.owned slot id hmem
    refine ⟨?_, howned⟩
    show slot + taken' < stack.size
    omega
  · obtain ⟨o, ho⟩ := h.built g hg hobject hposition
    exact ⟨o, (hkept g hg hobject).trans ho⟩

theorem getElem?_shrink {α : Type} {xs : Array α} {n i : Nat} (h : i < n) : (xs.shrink n)[i]? = xs[i]? := by
  rw [Array.shrink_eq_take, Array.getElem?_extract]
  by_cases hi : i < xs.size
  · rw [if_pos (by omega), Nat.zero_add]
  · rw [if_neg (by omega), Array.getElem?_eq_none (Nat.le_of_not_lt hi)]

theorem Midway.drop (h : m.Midway past L a (taken + count) given type) :
    (m.withStack (m.stack.shrink (m.stack.size - count))).Midway past L a taken given type := by
  refine h.withStack _ ?_ ?_ fun g hg _ => ?_
  · rw [Array.size_shrink]
    omega
  · rw [Array.size_shrink]
    omega
  · have hlt := h.base_add_lt hg
    exact getElem?_shrink (by omega)

theorem Midway.pop (h : m.Midway past L a (taken + 1) given type) :
    (m.withStack m.stack.pop).Midway past L a taken given type := by
  have hpop : m.stack.pop = m.stack.shrink (m.stack.size - 1) := by
    rw [Array.shrink_eq_take]
    exact (Array.extract_eq_pop rfl).symm
  rw [hpop]
  exact h.drop

theorem Midway.push (h : m.Midway past L a 0 (given + 1) type) (v : Value) :
    (m.withStack (m.stack.push v)).Midway past L a 0 given type := by
  refine h.withStack _ ?_ ?_ fun g hg _ => ?_
  · rw [Array.size_push]
    omega
  · rw [Array.size_push]
    omega
  · have hlt := h.base_add_lt hg
    rw [Array.getElem?_push, if_neg (by omega)]

theorem Midway.keep (h : m.Midway past L a (taken + 1) (given + 1) type) : m.Midway past L a taken given type := by
  cases hcalls : m.calls with
  | nil =>
    have hstacked := h.stacked
    rw [hcalls] at hstacked
    cases hstacked
  | cons f rest =>
    have hlt := h.base_lt f rest hcalls
    refine h.withStack m.stack ?_ ?_ fun _ _ _ => rfl
    · omega
    · omega

theorem Midway.setSlot (h : m.Midway past L a taken given type) (v : Value)
    (hslot : ∀ g ∈ m.calls, g.IsObject → slot ≠ g.base) :
    (m.withStack (m.stack.setIfInBounds slot v)).Midway past L a taken given type := by
  refine h.withStack _ ?_ ?_ fun g hg hobject => ?_
  · rw [Array.size_setIfInBounds]
  · rw [Array.size_setIfInBounds]
  · exact Array.getElem?_setIfInBounds_ne (hslot g hg hobject)

theorem Midway.arranged (h : m.Midway past L a 0 0 none) : m.Arranged past L a := ⟨none, h, nofun⟩

/-- A function of the language is called: its arguments become the first values of the new call. -/
theorem Midway.enter {c : Closure} {arguments : Nat} (h : m.Midway past L a (arguments + 1) 1 type)
    (htype : ∀ t, type = some t → t = .object ∧ c.routine.kind = .object)
    (hlayout : ∃ σ, c.routine.Layout σ) (harity : arguments = c.routine.arity) :
    (m.withFrames (m.frames.push ⟨c, 0, m.stack.size - arguments - 1⟩)).Arranged past L a := by
  cases hcalls : m.calls with
  | nil =>
    have hstacked := h.stacked
    rw [hcalls] at hstacked
    cases hstacked
  | cons g rest =>
    have hl := L.layout c.routine hlayout
    have hlt := h.base_lt g rest hcalls
    have hstacked := h.stacked
    rw [hcalls] at hstacked
    obtain ⟨i, hi, _⟩ := hl.whole 0 .start hl.size_pos
    have hrests : Frame.Rests L ⟨c, 0, m.stack.size - arguments - 1⟩ m.stack.size := by
      refine ⟨hlayout, ⟨i, .start, hl.size_pos, hi⟩, ?_⟩
      have hheight : (L.shape c.routine 0).height = c.routine.arity + 1 := hl.entry.height_eq
      show m.stack.size = m.stack.size - arguments - 1 + (L.shape c.routine 0).height
      omega
    refine Midway.arranged ⟨?_, ?_, ?_, ?_, ?_⟩
    · rw [calls_push, hcalls]
      refine .called hrests ?_ (fun t ht => ?_) ?_
      · show g.base < m.stack.size - arguments - 1
        omega
      · rcases h.top g rest hcalls with hnone | heq
        · rw [hnone] at ht
          cases ht
        · exact htype t (heq ▸ ht)
      · have heq : m.stack.size - (arguments + 1) + 1 = m.stack.size - arguments - 1 + 1 := by omega
        exact heq ▸ hstacked
    · intro f' rest' heq
      rw [calls_push] at heq
      cases heq
      show m.stack.size - arguments - 1 + 0 < m.stack.size
      omega
    · intro slot id hmem
      obtain ⟨hslot, howned⟩ := h.owned slot id hmem
      rw [calls_push]
      refine ⟨?_, (owned_of_lt ?_).mpr howned⟩
      · show slot + 0 < m.stack.size
        omega
      · show slot < m.stack.size - arguments - 1
        omega
    · intro f' hf' hobject hposition
      rw [calls_push] at hf'
      rcases List.mem_cons.mp hf' with rfl | hf'
      · exact absurd rfl hposition
      · exact h.built f' hf' hobject hposition
    · intro f' rest' heq
      rw [calls_push] at heq
      cases heq
      rcases hl.entry.top_eq with hnone | heq
      · exact .inl hnone
      · exact .inl heq

theorem Midway.withCells (h : m.Midway past L a taken given type) {cells : Cells}
    (hopened : ∀ slot id, (slot, id) ∈ cells.opened → (slot, id) ∈ m.cells.opened ∨
      slot + taken < m.stack.size ∧ Owned past L m.calls slot id) :
    (m.withCells cells).Midway past L a taken given type :=
  ⟨h.stacked, h.base_lt, fun slot id hmem => (hopened slot id hmem).elim (h.owned slot id) fun h => h, h.built,
    h.top⟩

/-- A call is left: its values are gone, and the call below waits for the result. -/
theorem Arranged.left {g : Frame} (h : m.Arranged past L a) (hcalls : m.calls = f :: g :: rest)
    (hcalls' : m'.calls = g :: rest) (hsize : m'.stack.size = f.base)
    (hslots : ∀ slot < f.base, m'.stack[slot]? = m.stack[slot]?)
    (hopened : ∀ slot id, (slot, id) ∈ m'.cells.opened → (slot, id) ∈ m.cells.opened ∧ slot < f.base) :
    ∃ type, m'.Midway past L a 0 1 type ∧ ∀ t, type = some t → t = .object ∧ f.IsObject := by
  obtain ⟨_, hmidway, _⟩ := h
  have hstacked := hmidway.stacked
  rw [hcalls] at hstacked
  have hbase := hstacked.base_lt
  cases hstacked with
  | called _ hlt htop hrest =>
    refine ⟨(L.shapeOf g).top, ⟨?_, ?_, ?_, ?_, ?_⟩, htop⟩
    · rw [hcalls', hsize]
      exact hrest
    · intro f' rest' heq
      rw [hcalls'] at heq
      cases heq
      rw [hsize]
      exact hlt
    · intro slot id hmem
      obtain ⟨hold, hslot⟩ := hopened slot id hmem
      have howned := (hmidway.owned slot id hold).2
      rw [hcalls, owned_of_lt hslot] at howned
      rw [hcalls', hsize]
      exact ⟨hslot, howned⟩
    · intro f' hf' hobject hposition
      rw [hcalls'] at hf'
      rw [hslots _ (hbase f' hf')]
      exact hmidway.built f' (hcalls ▸ List.mem_cons_of_mem _ hf') hobject hposition
    · intro f' rest' heq
      rw [hcalls'] at heq
      cases heq
      exact .inr rfl

end Machine

end Mudscript
