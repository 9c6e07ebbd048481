import Mudscript.Proofs.Safety

/-!
# Captured variables

A cell is open as long as the variable it was made for is on the stack. The compiler decides in one
pass over the text which variables are closed when they go away, and `break` and `continue` leave
variables before the rest of their block has been seen, so this is not plain. It is true because a
cell is open only at a slot that may have been captured where the call has come to, and has been so
since it was made: the slot has belonged to the same call all the time, at each point between two
instructions, and a new variable in the same slot would have to be preceded by a point where the slot
belongs to nothing.

Returning from a call closes what is left of its cells. The result is taken off the stack before that,
and this is where object units are different from all others: their result is the object in slot 0
itself. A function that has captured the object of its unit finds nil in its place once the object is
constructed.
-/

namespace Mudscript

open Machine Exec

variable {given index taken : Nat} {type : Option ValueType} {s s' : Session}

variable {past : Moment} {L : Layouts} {a : Activity} {m m' : Machine} {f g : Frame} {slot : Nat} {id : CellId}

/-! ### The call that a slot belongs to -/

theorem Covers.unique {frames} {index' : Nat} (h : Covers frames slot index f)
    (h' : Covers frames slot index' g) : index = index' ∧ f = g := by
  have heq : index = index' := by
    rcases Nat.lt_trichotomy index index' with hlt | heq | hlt
    · exact absurd h'.base_le (Nat.not_le.mpr (h.inner index' g hlt h'.call))
    · exact heq
    · exact absurd h.base_le (Nat.not_le.mpr (h'.inner index f hlt h.call))
  subst heq
  exact ⟨rfl, Option.some.inj (h.call.symm.trans h'.call)⟩

theorem owned_iff {calls} : Owned past L calls slot id ↔ ∃ inner f rest, calls = inner ++ f :: rest ∧
      (∀ g ∈ inner, slot < g.base) ∧ f.base ≤ slot ∧ slot - f.base ∈ (L.shapeOf f).captured ∧
      past.Knows f rest.length slot id := by
  induction calls with
  | nil =>
    refine ⟨False.elim, fun ⟨inner, f, rest, hcalls, _⟩ => ?_⟩
    cases inner <;> cases hcalls
  | cons c calls ih =>
    by_cases hle : c.base ≤ slot
    · rw [owned_of_le hle]
      refine ⟨fun ⟨hcaptured, hknows⟩ => ⟨[], c, calls, rfl, nofun, hle, hcaptured, hknows⟩, ?_⟩
      rintro ⟨inner, f, rest, hcalls, hinner, _, hcaptured, hknows⟩
      cases inner with
      | nil =>
        cases hcalls
        exact ⟨hcaptured, hknows⟩
      | cons d inner =>
        cases hcalls
        exact absurd hle (Nat.not_le.mpr (hinner c List.mem_cons_self))
    · have hlt : slot < c.base := Nat.lt_of_not_le hle
      rw [owned_of_lt hlt, ih]
      constructor
      · rintro ⟨inner, f, rest, rfl, hinner, howner⟩
        exact ⟨c :: inner, f, rest, rfl, List.forall_mem_cons.mpr ⟨hlt, hinner⟩, howner⟩
      · rintro ⟨inner, f, rest, hcalls, hinner, howner⟩
        cases inner with
        | nil =>
          cases hcalls
          exact absurd howner.1 hle
        | cons d inner =>
          cases hcalls
          exact ⟨inner, f, rest, rfl, fun g hg => hinner g (List.mem_cons_of_mem _ hg), howner⟩

theorem covers_of_calls {inner rest : List Frame} (hcalls : m.calls = inner ++ f :: rest)
    (hinner : ∀ g ∈ inner, slot < g.base) (hle : f.base ≤ slot) : Covers m.frames slot rest.length f := by
  have hframes : m.frames.toList = rest.reverse ++ f :: inner.reverse := by
    have heq := congrArg List.reverse hcalls
    rw [calls, List.reverse_reverse] at heq
    rw [heq]
    simp
  have hget : ∀ j : Nat, m.frames[j]? = (rest.reverse ++ f :: inner.reverse)[j]? := by
    intro j
    rw [← hframes, Array.getElem?_toList]
  refine ⟨?_, hle, fun j g hlt hj => hinner g ?_⟩
  · rw [hget, List.getElem?_append_right (by simp), List.length_reverse, Nat.sub_self]
    rfl
  · rw [hget, List.getElem?_append_right (by simp; omega), List.length_reverse,
      show j - rest.length = j - rest.length - 1 + 1 by omega, List.getElem?_cons_succ] at hj
    exact List.mem_reverse.mp (List.mem_of_getElem? hj)

theorem Stacked.exists_rests {calls} {height : Nat} (h : Stacked L a calls height)
    (hf : f ∈ calls) : ∃ height, f.Rests L height := by
  induction h with
  | outermost hrests =>
    rw [List.mem_singleton.mp hf]
    exact ⟨_, hrests⟩
  | called hrests _ _ _ ih =>
    rcases List.mem_cons.mp hf with rfl | hf
    · exact ⟨_, hrests⟩
    · exact ih hf

/-! ### Live locals -/

/-- A slot holds a local of the call at an index, whichever way its routine is laid out. -/
structure Machine.HasLocal (m : Machine) (slot index : Nat) (f : Frame) : Prop
    extends Covers m.frames slot index f where
  exists_layout : ∃ σ, f.closure.routine.Layout σ
  lt_locals : ∀ σ, f.closure.routine.Layout σ → slot - f.base < (σ f.position).locals

/-- The slot of an open cell belongs to a local of some call, in each layout, and has belonged to the same
call since the given moment. -/
def Machine.Owner (past : Moment) (L : Layouts) (m : Machine) (slot : Nat) (id : CellId) : Prop :=
  ∃ index f, Covers m.frames slot index f ∧ past.Knows f index slot id ∧
    (∃ σ, f.closure.routine.Layout σ) ∧ slot - f.base < (L.shapeOf f).locals

theorem Machine.Midway.owner
    (h : m.Midway past L a taken given type) (hmem : (slot, id) ∈ m.cells.opened) : m.Owner past L slot id := by
  obtain ⟨inner, f, rest, hcalls, hinner, hle, hcaptured, hknows⟩ := owned_iff.mp (h.owned slot id hmem).2
  have hstacked := h.stacked
  rw [hcalls] at hstacked
  obtain ⟨_, hlayout, ⟨i, hat⟩, _⟩ :=
    hstacked.exists_rests (List.mem_append_right inner (List.mem_cons_self (a := f)))
  have hproper := (L.layout _ hlayout).proper f.position i hat
  exact ⟨_, f, covers_of_calls hcalls hinner hle, hknows, hlayout, hproper.captured_lt _ hcaptured⟩

theorem Machine.Running.owner (h : m.Running past L a) (hmem : (slot, id) ∈ m.cells.opened) :
    slot < m.stack.size ∧ m.Owner past L slot id := by
  rcases h with ⟨_, _, hmidway, _⟩ | ⟨m0, p, rfl, _, _, hbusy, _⟩
  · exact ⟨(hmidway.owned slot id hmem).1, hmidway.owner hmem⟩
  · have hlt : slot < m0.stack.size := (hbusy.midway.owned slot id hmem).1
    refine ⟨?_, hbusy.midway.owner hmem⟩
    show slot < (m0.stack.push _).size
    rw [Array.size_push]
    omega

open Classical in
noncomputable def Layouts.choosing {r : Routine} {σ : Nat → Shape} (hσ : r.Layout σ) : Layouts where
  shape q := if q = r then σ else Layouts.some.shape q
  layout q hq := by
    by_cases hr : q = r
    · subst hr
      rw [if_pos rfl]
      exact hσ
    · rw [if_neg hr]
      exact Layouts.some.layout q hq

theorem Layouts.choosing_shape {r : Routine} {σ} (hσ : r.Layout σ) : (Layouts.choosing hσ).shape r = σ := if_pos rfl

theorem Machine.Owner.hasLocal (h : ∀ L, m.Owner past L slot id) :
    ∃ index f, m.HasLocal slot index f ∧ past.Knows f index slot id := by
  obtain ⟨index, f, hcovers, hknows, hlayout, _⟩ := h .some
  refine ⟨index, f, ⟨hcovers, hlayout, fun σ hσ => ?_⟩, hknows⟩
  obtain ⟨_, g, hcovers', _, _, hlocal⟩ := h (.choosing hσ)
  obtain ⟨_, rfl⟩ := hcovers.unique hcovers'
  rw [Layouts.shapeOf, Layouts.choosing_shape] at hlocal
  exact hlocal

/-! ### Comparing a machine with itself -/

theorem Machine.Sound.rebase (h : m.Sound past) : m.Sound m.moment := { h with since := .refl _ }

theorem Machine.Midway.rebase (h : m.Midway past L a taken given type) : m.Midway m.moment L a taken given type := by
  refine ⟨h.stacked, h.base_lt, fun slot id hmem => ?_, h.built, h.top⟩
  obtain ⟨hlt, howned⟩ := h.owned slot id hmem
  obtain ⟨inner, f, rest, hcalls, hinner, hle, hcaptured, _⟩ := owned_iff.mp howned
  have hcovers := covers_of_calls hcalls hinner hle
  exact ⟨hlt, owned_iff.mpr ⟨inner, f, rest, hcalls, hinner, hle, hcaptured, fun _ => ⟨f, hcovers, rfl, rfl⟩⟩⟩

theorem Machine.Running.rebase (h : m.Running past L a) : m.Running m.moment L a := by
  rcases h with ⟨hsound, type, hmidway, htype⟩ | ⟨m0, p, rfl, hp, type, hbusy, htype⟩
  · exact .inl ⟨hsound.rebase, type, hmidway.rebase, htype⟩
  · exact .inr ⟨m0, p, rfl, hp, type, ⟨hbusy.sound.rebase, hbusy.midway.rebase⟩, htype⟩

namespace Session

theorem Orderly.rebase (h : s.Orderly past L) : s.Orderly s.machine.moment L := by
  refine ⟨fun ha => ?_, fun ha => (h.running ha).rebase⟩
  obtain ⟨hsound, hframes, hstack, hopened⟩ := h.idle ha
  exact ⟨hsound.rebase, hframes, hstack, hopened⟩

theorem Orderly.leads (h : s.Orderly past L) (hleads : s.Leads s') : s'.Orderly past L := by
  induction hleads with
  | refl => exact h
  | tail _ hnext ih => exact ih.next hnext

theorem Reached.orderly_since (h : s.Reached) (hleads : s.Leads s') (L : Layouts) :
    s'.Orderly s.machine.moment L := (h.orderly L).rebase.leads hleads

theorem Orderly.consistent (h : s.Orderly past L) : s.machine.cells.Consistent := by
  by_cases ha : s.activity = .idle
  · exact (h.idle ha).sound.cells
  · rcases h.running ha with hready | ⟨m0, _, heq, _, _, hbusy, _⟩
    · exact hready.sound.cells
    · rw [heq]
      exact hbusy.sound.cells

theorem Orderly.owner (h : s.Orderly past L) (hmem : (slot, id) ∈ s.machine.cells.opened) :
    slot < s.machine.stack.size ∧ s.machine.Owner past L slot id := by
  by_cases ha : s.activity = .idle
  · rw [(h.idle ha).opened_eq] at hmem
    cases hmem
  · exact (h.running ha).owner hmem

theorem Reached.hasLocal (h : s.Reached) (hmem : (slot, id) ∈ s.machine.cells.opened) :
    slot < s.machine.stack.size ∧ ∃ index f, s.machine.HasLocal slot index f := by
  obtain ⟨index, f, hlocal, _⟩ := Owner.hasLocal fun L => ((h.orderly L).owner hmem).2
  exact ⟨((h.orderly .some).owner hmem).1, index, f, hlocal⟩

/-- The variable in a slot is as old as its cell: whenever the cell was there, it was open at the slot, and
the slot held a local of the same call. -/
theorem Reached.kept (h : s.Reached) (hready : ∀ L, m.Ready s.machine.moment L a)
    (hmem : (slot, id) ∈ m.cells.opened) (hcovers : Covers m.frames slot index f)
    (hid : id < s.machine.cells.all.size) : (slot, id) ∈ s.machine.cells.opened ∧
      ∃ g, s.machine.HasLocal slot index g ∧ g.closure = f.closure ∧ g.base = f.base := by
  have hopened := (hready .some).sound.since.opened slot id hid hmem
  obtain ⟨_, f', hlocal, hknows⟩ := Owner.hasLocal fun L => (Running.owner (.inl (hready L)) hmem).2
  obtain ⟨rfl, rfl⟩ := hcovers.unique hlocal.toCovers
  obtain ⟨g, hcovers0, hsame⟩ := hknows hid
  obtain ⟨_, _, g', hlocal0⟩ := h.hasLocal hopened
  obtain ⟨rfl, rfl⟩ := hcovers0.unique hlocal0.toCovers
  exact ⟨hopened, g, hlocal0, hsame⟩

end Session

/-! ### Leaving variables -/

namespace Machine

theorem exists_calls (hback : m.frames.back? = some f) : ∃ rest, m.calls = f :: rest := by
  rw [← head?_calls] at hback
  exact ⟨m.calls.tail, (List.cons_head?_tail hback).symm⟩

theorem covers_innermost (hback : m.frames.back? = some f) (hle : f.base ≤ slot) :
    Covers m.frames slot (m.frames.size - 1) f := by
  rw [Array.back?_eq_getElem?] at hback
  refine ⟨hback, hle, fun j g hlt hj => ?_⟩
  obtain ⟨hj', _⟩ := Array.getElem?_eq_some_iff.mp hj
  omega

/-- The open cells of the innermost call are those of its captured locals. -/
theorem Ready.captured (h : m.Ready past L a) {rest} (hcalls : m.calls = f :: rest)
    (hmem : (slot, id) ∈ m.cells.opened) (hle : f.base ≤ slot) : slot - f.base ∈ (L.shapeOf f).captured := by
  obtain ⟨_, hmidway, _⟩ := h.arranged
  have howned := (hmidway.owned slot id hmem).2
  rw [hcalls, owned_of_le hle] at howned
  exact howned.1

theorem Ready.not_opened_of_pop (h : m.Ready past L a) (hback : m.frames.back? = some f)
    (hat : f.code.At f.position .pop) : (m.stack.size - 1, id) ∉ m.cells.opened := by
  intro hmem
  obtain ⟨rest, hcalls⟩ := exists_calls hback
  have hsize := h.arranged.size_eq hcalls
  obtain ⟨hlt, hfree⟩ := (h.arranged.allowed hcalls hat).values
  have hcaptured := h.captured hcalls hmem (by omega)
  rw [show m.stack.size - 1 - f.base = (L.shapeOf f).height - 1 by omega] at hcaptured
  exact hfree hcaptured

/-- The captured locals of a call are below its result, except for the object of an object unit, which is its
result. -/
theorem Ready.opened_of_ret (h : m.Ready past L a) (hback : m.frames.back? = some f)
    (hat : f.code.At f.position .ret) (hmem : (slot, id) ∈ m.cells.opened) (hle : f.base ≤ slot) :
    (¬ f.IsObject → slot + 1 < m.stack.size) ∧
      (f.IsObject → slot = f.base ∧ m.stack.size = f.base + 1 ∧ ∃ o, m.stack[slot]? = some (.object o)) := by
  obtain ⟨rest, hcalls⟩ := exists_calls hback
  have hsize := h.arranged.size_eq hcalls
  have hproper := h.arranged.proper hcalls hat
  have hvalues := (h.arranged.allowed hcalls hat).values
  have hlocal := hproper.captured_lt _ (h.captured hcalls hmem hle)
  refine ⟨fun hobject => ?_, fun hobject => ?_⟩
  · have hlocals : (L.shapeOf f).locals < (L.shapeOf f).height := (if_neg hobject).mp hvalues
    omega
  · have hone : (L.shapeOf f).height = 1 := (if_pos hobject).mp hvalues
    have hlocals := hproper.locals_le
    have hslot : slot = f.base := by omega
    refine ⟨hslot, by omega, ?_⟩
    rw [hslot]
    exact h.arranged.built hcalls hat hobject fun _ => nofun

end Machine

theorem step_ret {m1 : Machine} (hstart : Exec.startProgram m = .ok () m1) (hback : m1.frames.back? = some f)
    (hat : f.code.At f.position .ret) : ∃ m', (Exec.step m = .ok () m' ∨ ∃ v, Exec.step m = .error (.finished v) m') ∧
      m'.cells = m1.cells.closeFrom f.base m1.stack.pop := by
  have hstep : Exec.step.Gives m (fun _ m' => m'.cells = m1.cells.closeFrom f.base m1.stack.pop)
      fun stop m' => (∃ v, stop = .finished v) ∧ m'.cells = m1.cells.closeFrom f.base m1.stack.pop := by
    refine gives_step ?_
    unfold Exec.Gives
    rw [hstart]
    exact ⟨f, .ret, hback, hat, fun events => gives_leave f (fun _ => ⟨⟨_, rfl⟩, rfl⟩) fun _ => rfl⟩
  cases hresult : Exec.step m with
  | ok _ m' => exact ⟨m', .inl rfl, hstep.ok hresult⟩
  | error stop m' =>
    obtain ⟨⟨v, rfl⟩, hcells⟩ := hstep.error hresult
    exact ⟨m', .inr ⟨v, rfl⟩, hcells⟩

namespace Session

set_option maxRecDepth 20000 in
set_option synthInstance.maxSize 100000 in
/-- An object with a field that is a function which reads the object: its unit is about to return, and the cell
of the object is open. -/
theorem exists_captured_object : ∃ m m1 f, Reached ⟨.construction, m⟩ ∧ Exec.startProgram m = .ok () m1 ∧
      m1.frames.back? = some f ∧ f.code.At f.position .ret ∧ f.IsObject ∧ f.base = 0 ∧
      m1.cells.opened = [(0, 0)] ∧ m1.cells.all[0]? = some (.opened 0) := by
  obtain ⟨source, loading, hloading, hresult⟩ :=
    Library.exists_loading_of_text "/a" "mixed f=function(){return this;};" "/a" (by cbv)
  obtain ⟨r, hr, m, hm, m1, hm1, hopened, hframe⟩ :
      ∃ r, compileObject "/a" "mixed f=function(){return this;};" = .ok r ∧
      ∃ m, (Exec.construction ⟨0, r⟩ *> Exec.steps 3) ((start {} source "").machine.afterLoading loading) = .ok () m ∧
      ∃ m1, Exec.startProgram m = .ok () m1 ∧ m1.cells.opened = [(0, 0)] ∧
        m1.frames.back?.map (fun f => (f.closure.routine.kind, f.base, f.code.instructionAt? f.position)) =
          some (.object, 0, some .ret) := Computed.intro _ (by cbv)
  obtain ⟨f, hback, hf⟩ := Option.map_eq_some_iff.mp hframe
  obtain ⟨hkind, hbase, hret⟩ : f.closure.routine.kind = .object ∧ f.base = 0 ∧
      f.code.instructionAt? f.position = some .ret := by simpa using hf
  have hreached : Reached ⟨.construction, m⟩ := (reached_start source).construction hloading (hresult r hr) hm
  have hready := (gives_startProgram ((hreached.orderly .some).running (by rintro ⟨⟩))).ok hm1
  obtain ⟨f', _, i, _, hback', hat⟩ := hready.exists_at
  obtain rfl : f = f' := Option.some.inj (hback.symm.trans hback')
  obtain rfl : i = .ret := Option.some.inj (hat.instruction.symm.trans hret)
  refine ⟨m, m1, f, hreached, hm1, hback, hat, hkind, hbase, hopened, ?_⟩
  exact (hready.sound.cells.opened_iff 0 0).mp (by rw [hopened]; exact List.mem_singleton.mpr rfl)

/-- Returning from a call closes its cells and leaves all others alone. The cells are closed over what their
slots hold if and only if the call is not one of an object unit. In an object unit, only the object under
construction can have been captured, and its cell is closed over nil instead. -/
theorem closed_by_return {a : Activity} {m m1 : Machine} {f : Frame} (h : Reached ⟨a, m⟩) (ha : a ≠ .idle)
    (hstart : Exec.startProgram m = .ok () m1) (hback : m1.frames.back? = some f) (hat : f.code.At f.position .ret) :
    ∃ m', (Exec.step m = .ok () m' ∨ ∃ v, Exec.step m = .error (.finished v) m') ∧
      (∀ slot (id : CellId), m1.cells.all[id]? = some (.opened slot) → f.base ≤ slot →
        ∃ v, m1.stack[slot]? = some v ∧ (m'.cells.all[id]? = some (.closed v) ↔ ¬ f.IsObject) ∧
          (f.IsObject → slot = f.base ∧ (∃ o, v = .object o) ∧
            m'.cells.all[id]? = some (.closed .nil))) ∧
      ∀ id : CellId, (∀ slot, m1.cells.all[id]? = some (.opened slot) → slot < f.base) →
        m'.cells.all[id]? = m1.cells.all[id]? := by
  have hready := (gives_startProgram ((h.orderly .some).running ha)).ok hstart
  have hconsistent := hready.sound.cells
  obtain ⟨m', hresult, hcells⟩ := step_ret hstart hback hat
  have hcloses := hconsistent.closeFrom f.base m1.stack.pop
  rw [← hcells] at hcloses
  refine ⟨m', hresult, fun slot id hopened hle => ?_, fun id hbelow => ?_⟩
  · have hmem := (hconsistent.opened_iff slot id).mpr hopened
    have hclosed := hcloses.closed slot id hmem hle
    obtain ⟨hother, hobject⟩ := hready.opened_of_ret hback hat hmem hle
    by_cases hkind : f.IsObject
    · obtain ⟨hslot, hsize, o, ho⟩ := hobject hkind
      have hnil : Cells.slotValue m1.stack.pop slot = .nil := by
        rw [Cells.slotValue, Array.getElem?_pop, if_neg (by omega)]
        rfl
      rw [hnil] at hclosed
      refine ⟨.object o, ho, ⟨fun heq => ?_, fun hne => absurd hkind hne⟩, fun _ => ⟨hslot, ⟨o, rfl⟩, hclosed⟩⟩
      rw [hclosed] at heq
      cases heq
    · have hlt := hother hkind
      have hget : m1.stack[slot]? = some m1.stack[slot] := Array.getElem?_eq_getElem (by omega)
      have hsame : Cells.slotValue m1.stack.pop slot = m1.stack[slot] := by
        rw [Cells.slotValue, Array.getElem?_pop, if_pos (by omega), hget]
        rfl
      rw [hsame] at hclosed
      exact ⟨_, hget, ⟨fun _ => hkind, fun _ => hclosed⟩, fun hobject => absurd hobject hkind⟩
  · exact hcloses.kept id fun slot hmem => hbelow slot ((hconsistent.opened_iff slot id).mp hmem)

/-- A function that is a field of an object and reads the object: its cell is closed over nil. -/
theorem closed_by_return_object : ∃ m m1 f m', Reached ⟨.construction, m⟩ ∧ Exec.startProgram m = .ok () m1 ∧
      m1.frames.back? = some f ∧ f.code.At f.position .ret ∧
      (Exec.step m = .ok () m' ∨ ∃ v, Exec.step m = .error (.finished v) m') ∧
      m1.cells.all[0]? = some (.opened 0) ∧ (∃ o, m1.stack[0]? = some (.object o)) ∧
      m'.cells.all[0]? = some (.closed .nil) := by
  obtain ⟨m, m1, f, hreached, hstart, hback, hat, hkind, hbase, _, hopened⟩ := exists_captured_object
  obtain ⟨m', hresult, hclosed, _⟩ := closed_by_return hreached nofun hstart hback hat
  obtain ⟨v, hv, _, hobject⟩ := hclosed 0 0 hopened (Nat.le_of_eq hbase)
  obtain ⟨_, ⟨o, rfl⟩, hnil⟩ := hobject hkind
  exact ⟨m, m1, f, m', hreached, hstart, hback, hat, hresult, hopened, ⟨o, hv⟩, hnil⟩

/-- An open cell is at a slot of the stack that holds a local of a call under way. No cell is open at a slot
that is popped. And a function that captures a variable of the call at work shares the cell of another one
only if both have captured the same variable: as long as the cell has been there, it was open at the slot,
and the slot has held a local of that call. -/
theorem opened_at_local {a : Activity} {m : Machine} (h : Reached ⟨a, m⟩) :
    (∀ slot (id : CellId), m.cells.all[id]? = some (.opened slot) →
      slot < m.stack.size ∧ ∃ index f, m.HasLocal slot index f) ∧
    ∀ m1 f, a ≠ .idle → Exec.startProgram m = .ok () m1 → m1.frames.back? = some f →
      (f.code.At f.position .pop → ∀ id : CellId, m1.cells.all[id]? ≠ some (.opened (m1.stack.size - 1))) ∧
      ∀ k id, m1.cells.cellOf? (f.base + k) = some id →
        m1.HasLocal (f.base + k) (m1.frames.size - 1) f ∧
          ∀ s : Session, s.Reached → s.Leads ⟨a, m⟩ → id < s.machine.cells.all.size →
            s.machine.cells.all[id]? = some (.opened (f.base + k)) ∧
              ∃ g, s.machine.HasLocal (f.base + k) (m1.frames.size - 1) g ∧
                g.closure = f.closure ∧ g.base = f.base := by
  have hcells := (h.orderly .some).consistent
  refine ⟨fun slot id hopened => h.hasLocal ((hcells.opened_iff slot id).mpr hopened), ?_⟩
  intro m1 f ha hstart hback
  have hready : ∀ past L, Orderly past L ⟨a, m⟩ → m1.Ready past L a :=
    fun past L horderly => (gives_startProgram (horderly.running ha)).ok hstart
  have hconsistent := (hready _ _ (h.orderly .some)).sound.cells
  refine ⟨fun hat id hopened => ?_, fun k id hcell => ?_⟩
  · exact (hready _ _ (h.orderly .some)).not_opened_of_pop hback hat ((hconsistent.opened_iff _ id).mpr hopened)
  · have hmem := Cells.mem_of_cellOf? hcell
    have hcovers : Covers m1.frames (f.base + k) (m1.frames.size - 1) f :=
      covers_innermost hback (Nat.le_add_right _ _)
    obtain ⟨_, _, hlocal, _⟩ := Owner.hasLocal fun L => (Running.owner (.inl (hready _ L (h.orderly L))) hmem).2
    obtain ⟨rfl, rfl⟩ := hcovers.unique hlocal.toCovers
    refine ⟨hlocal, fun s hs hleads hid => ?_⟩
    obtain ⟨hopened, hkept⟩ := hs.kept (fun L => hready _ L (hs.orderly_since hleads L)) hmem hcovers hid
    exact ⟨((hs.orderly .some).consistent.opened_iff _ id).mp hopened, hkept⟩

/-- The object under construction is a local of its unit for as long as its cell is open. -/
theorem opened_at_local_object :
    ∃ m m1 f, Reached ⟨.construction, m⟩ ∧ Exec.startProgram m = .ok () m1 ∧ m1.frames.back? = some f ∧
      m1.cells.cellOf? f.base = some 0 ∧ m1.HasLocal f.base (m1.frames.size - 1) f ∧
      ∀ s : Session, s.Reached → s.Leads ⟨.construction, m⟩ → 0 < s.machine.cells.all.size →
        ∃ g, s.machine.HasLocal f.base (m1.frames.size - 1) g ∧ g.closure = f.closure := by
  obtain ⟨m, m1, f, hreached, hstart, hback, _, _, hbase, hopened, _⟩ := exists_captured_object
  have hcell : m1.cells.cellOf? f.base = some 0 := by
    rw [Cells.cellOf?, hopened, hbase]
    rfl
  obtain ⟨hlocal, hkept⟩ := ((opened_at_local hreached).2 m1 f nofun hstart hback).2 0 0 hcell
  refine ⟨m, m1, f, hreached, hstart, hback, hcell, hlocal, fun s hs hleads hlt => ?_⟩
  obtain ⟨_, g, hg, hclosure, _⟩ := hkept s hs hleads hlt
  exact ⟨g, hg, hclosure⟩

end Session

end Mudscript
