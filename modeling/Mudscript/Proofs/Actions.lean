import Mudscript.Proofs.Arrangement

/-!
# Actions in good order

A machine that is ready for an instruction executes it and is ready for the next one, or it stops in
good order: with a fault that a program can be blamed for, with a result, or with a question to its
host. This module is about the actions that instructions are made of. Each starts in the middle of an
instruction, with so many values yet to be taken and given, and ends with the instruction.
-/

namespace Mudscript

variable {id : CellId} {c : Closure} {f : Frame} {count : Nat}

variable {arguments : Nat} {E : Stop → Machine → Prop}

namespace Machine

/-- A sound machine in the middle of an instruction. -/
structure Busy (past : Moment) (L : Layouts) (a : Activity) (m : Machine) (taken given : Nat)
    (type : Option ValueType) : Prop where
  sound : m.Sound past
  midway : m.Midway past L a taken given type

/-- A sound machine between two instructions. -/
structure Ready (past : Moment) (L : Layouts) (a : Activity) (m : Machine) : Prop where
  sound : m.Sound past
  arranged : m.Arranged past L a

def Awaits (past : Moment) (L : Layouts) (a : Activity) (m : Machine) : Prop :=
  ∃ type, m.Busy past L a 0 1 type ∧ ∀ t, type = some t → t = .object

/-- A machine that goes on with the next instruction, or with the program that was put on top. -/
def Running (past : Moment) (L : Layouts) (a : Activity) (m : Machine) : Prop :=
  m.Ready past L a ∨ ∃ (m0 : Machine) (p : Program), m = m0.withStack (m0.stack.push (.program p)) ∧
    p.IsCompiled ∧ m0.Awaits past L a

structure Idle (past : Moment) (m : Machine) : Prop where
  sound : m.Sound past
  frames_eq : m.frames = #[]
  stack_eq : m.stack = #[]
  opened_eq : m.cells.opened = []

def Halts (past : Moment) (L : Layouts) (a : Activity) : Stop → Machine → Prop
  | .finished v, m => m.Idle past ∧ (a = .construction → ∃ o, v = .object o)
  | .fault f, m => ¬ f.IsInternal ∧ m.Sound past
  | .request (.source _ _ _), m => m.Awaits past L a
  | .request .time, m => m.Busy past L a 0 1 none

def Ends (past : Moment) (L : Layouts) (a : Activity) : Stop → Machine → Prop
  | .request _, _ => False
  | .finished v, m => m.Halts past L a (.finished v)
  | .fault f, m => m.Halts past L a (.fault f)

end Machine

/-- An action after which the machine goes on or stops in good order. -/
def Exec.Safe (past : Moment) (L : Layouts) (a : Activity) (x : Exec Unit) (m : Machine) : Prop :=
  x.Gives m (fun _ m' => m'.Running past L a) (Machine.Halts past L a)

/-- An action that is done with: it asks for nothing, and puts no program on top. -/
def Exec.Settles (past : Moment) (L : Layouts) (a : Activity) (x : Exec Unit) (m : Machine) : Prop :=
  x.Gives m (fun _ m' => m'.Ready past L a) (Machine.Ends past L a)

theorem Exec.Settles.safe {past : Moment} {L : Layouts} {a : Activity} {x : Exec Unit} {m : Machine}
    (h : x.Settles past L a m) : x.Safe past L a m := by
  refine h.mono (fun _ _ hready => .inl hready) fun stop _ hstop => ?_
  cases stop with
  | request _ => exact hstop.elim
  | _ => exact hstop

open Machine Exec

variable {past : Moment} {L : Layouts} {a : Activity} {m m' : Machine} {taken given : Nat} {type : Option ValueType}
  {v : Value}

namespace Machine

/-! ### In the middle of an instruction -/

theorem Busy.pop (h : m.Busy past L a (taken + 1) given type) :
    (m.withStack m.stack.pop).Busy past L a taken given type := ⟨h.sound.pop, h.midway.pop⟩

theorem Busy.drop (h : m.Busy past L a (taken + count) given type) :
    (m.withStack (m.stack.shrink (m.stack.size - count))).Busy past L a taken given type :=
  ⟨h.sound.shrink _, h.midway.drop⟩

theorem Busy.takes (h : m.Busy past L a count given type) :
    (m.withStack (m.stack.shrink (m.stack.size - count))).Busy past L a 0 given type :=
  Busy.drop ((Nat.zero_add count).symm ▸ h)

theorem Busy.keep (h : m.Busy past L a (taken + 1) (given + 1) type) : m.Busy past L a taken given type :=
  ⟨h.sound, h.midway.keep⟩

theorem Busy.ready (h : m.Busy past L a 0 0 none) : m.Ready past L a := ⟨h.sound, h.midway.arranged⟩

theorem Busy.done (h : m.Busy past L a 0 1 type) (hv : v.Valid m.moment) (htype : ∀ t, type = some t → v.type = t) :
    (m.withStack (m.stack.push v)).Ready past L a :=
  ⟨h.sound.push hv, type, h.midway.push v, fun t ht => ⟨v, Array.back?_push, htype t ht⟩⟩

theorem Busy.goes (h : m.Busy past L a 0 1 none) (hv : v.Valid m.moment) :
    (m.withStack (m.stack.push v)).Ready past L a := h.done hv nofun

theorem Busy.top_valid (h : m.Busy past L a taken given type) (depth : Nat) :
    (m.stack[depth]?.getD .nil).Valid m.moment := Value.valid_getD fun _ hv => h.sound.valid_of_getElem? hv

theorem Busy.back_valid (h : m.Busy past L a taken given type) : (m.stack.back?.getD .nil).Valid m.moment := by
  rw [Array.back?_eq_getElem?]
  exact h.top_valid _

theorem Busy.faults (h : m.Busy past L a taken given type) {f : Fault} (hf : ¬ f.IsInternal) :
    Halts past L a (.fault f) m := ⟨hf, h.sound⟩

end Machine

theorem Value.IsPlain.valid {now : Moment} (h : v.IsPlain) : v.Valid now := by
  cases v with
  | closure _ | program _ => exact h.elim
  | _ => trivial

/-! ### Operators -/

def Value.Computes : Except Fault Value → Prop
  | .ok v => v.IsPlain
  | .error f => ¬ f.IsInternal

theorem computes_compare (op : Comparison) (v w : Value) : Value.Computes (.bool <$> v.compare op w) := by
  have horder : ∀ f, v.order? w = .error f → ¬ f.IsInternal := by
    intro f hf
    cases v <;> cases w <;> cases hf <;> exact id
  unfold Value.compare
  cases heq : v.order? w with
  | ok order => trivial
  | error f => exact horder f heq

theorem computes_arithmetic (op : Arithmetic) (v w : Value) : Value.Computes (v.arithmetic op w) := by
  unfold Value.arithmetic
  split
  · cases op with
    | subtract | multiply => trivial
    | divide | modulo =>
      dsimp only
      split
      · exact id
      · trivial
  · exact id

theorem computes_add (display : Value → String) (v w : Value) : Value.Computes (v.add display w) := by
  cases v <;> cases w <;> first | trivial | exact id

theorem computes_negate (v : Value) : Value.Computes v.negate := by
  cases v <;> first | trivial | exact id

def Instruction.isOperator : Instruction → Bool
  | .equal | .notEqual | .greater | .greaterEqual | .less | .lessEqual | .add | .subtract | .multiply | .divide
  | .modulo | .not | .negate => true
  | _ => false

theorem pop_shrink {α : Type} {xs : Array α} {n : Nat} (h : n ≤ xs.size) : (xs.shrink n).pop = xs.shrink (n - 1) := by
  apply Array.ext
  · rw [Array.size_pop, Array.size_shrink, Array.size_shrink]
    omega
  · intro j _ _
    simp

/-- An operator takes its operands off the stack, and pushes its result unless it fails. -/
theorem Exec.gives_operator {next : Nat} {i : Instruction} {Q : Unit → Machine → Prop} (hi : i.isOperator = true)
    (hvalue : ∀ v : Value, v.IsPlain → Q () (m.withStack ((m.stack.shrink (m.stack.size - i.taken)).push v)))
    (hfault : MayFault E (m.withStack (m.stack.shrink (m.stack.size - i.taken)))) : (execute f next i).Gives m Q E := by
  have hone : m.stack.shrink (m.stack.size - 1) = m.stack.pop := by
    rw [← pop_shrink (Nat.le_refl _), Array.shrink_eq_take, Array.take_eq_extract, Array.extract_size]
  have htwo : m.stack.shrink (m.stack.size - 2) = m.stack.pop.pop := by
    rw [← hone, pop_shrink (Nat.sub_le _ _), Nat.sub_sub]
  have hlift : ∀ {m : Machine} {x : Except Fault Value}, Value.Computes x →
      (∀ v : Value, v.IsPlain → Q () (m.withStack (m.stack.push v))) →
      MayFault E m → (do push (← lift x)).Gives m Q E := by
    intro m x hx hvalue hfault
    cases x with
    | ok v => exact hvalue v hx
    | error f => exact hfault f hx
  cases i with
  | not =>
    rw [show Instruction.not.taken = 1 from rfl, hone] at hvalue
    exact hvalue _ trivial
  | negate =>
    rw [show Instruction.negate.taken = 1 from rfl, hone] at hvalue hfault
    exact (gives_bind _ _).mpr (hlift (computes_negate _) hvalue hfault)
  | equal | notEqual =>
    rw [show Instruction.taken _ = 2 from rfl, htwo] at hvalue
    exact hvalue _ trivial
  | greater | greaterEqual | less | lessEqual =>
    rw [show Instruction.taken _ = 2 from rfl, htwo] at hvalue hfault
    exact (gives_bind _ _).mpr ((gives_bind _ _).mpr (hlift (computes_compare _ _ _) hvalue hfault))
  | add =>
    rw [show Instruction.add.taken = 2 from rfl, htwo] at hvalue hfault
    exact (gives_bind _ _).mpr ((gives_bind _ _).mpr (hlift (computes_add _ _ _) hvalue hfault))
  | subtract | multiply | divide | modulo =>
    rw [show Instruction.taken _ = 2 from rfl, htwo] at hvalue hfault
    exact (gives_bind _ _).mpr ((gives_bind _ _).mpr (hlift (computes_arithmetic _ _ _) hvalue hfault))
  | _ => cases hi

/-! ### Programs -/

theorem Machine.Awaits.congr (h : m.Awaits past L a) (hstack : m'.stack = m.stack)
    (hframes : m'.frames = m.frames) (hcells : m'.cells = m.cells) (hsound : m'.Sound past) : m'.Awaits past L a := by
  obtain ⟨type, hbusy, htype⟩ := h
  refine ⟨type, ⟨hsound, hbusy.midway.congr ?_ hstack hcells⟩, htype⟩
  rw [calls, calls, hframes]

theorem Machine.Awaits.sound (h : m.Awaits past L a) : m.Sound past := by
  obtain ⟨_, hbusy, _⟩ := h
  exact hbusy.sound

theorem safe_receive (h : m.Awaits past L a) (caller : Option String) {loading : Library.Loading}
    (hloading : loading.Sound) : (receive caller loading).Safe past L a m := by
  have hsound := h.sound.afterLoading hloading
  refine gives_receive (fun p hresult => .inr ?_) (fun _ => ⟨id, hsound⟩) fun _ _ => ⟨id, hsound⟩
  exact ⟨m.afterLoading loading, p, rfl, hloading.result p hresult, h.congr rfl rfl rfl hsound⟩

theorem safe_load (h : m.Awaits past L a) (caller : Option String) (path : String) :
    (load caller path).Safe past L a m :=
  gives_load (fun _ hbrings => safe_receive h caller (h.sound.library.comes hbrings)) fun _ _ => h

theorem safe_receiveSource (h : m.Awaits past L a) (caller : Option String) (key : String)
    (source : Except FileError String) : (receiveSource caller key source).Safe past L a m := by
  unfold Exec.Safe receiveSource
  rw [gives_bind, gives_get, gives_bind, gives_get]
  exact safe_receive h caller (h.sound.library.comes (Library.comes_enroll trivial source))

/-! ### Calls -/

theorem Machine.Busy.awaits (h : m.Busy past L a 0 1 none) : m.Awaits past L a := ⟨none, h, nofun⟩

theorem gives_callClosure_ready (h : m.Busy past L a (arguments + 1) 1 type) (hc : c.Valid m.moment)
    (htype : ∀ t, type = some t → t = .object ∧ c.routine.kind = .object) :
    (callClosure c arguments).Gives m (fun _ m' => m'.Ready past L a) (Halts past L a) := by
  refine gives_callClosure (h.faults id) (h.faults id) fun harity _ => ⟨?_, ?_⟩
  · refine h.sound.withFrames fun f hf => ?_
    rcases Array.mem_push.mp hf with hf | rfl
    · exact .inl ⟨f, hf, rfl, rfl⟩
    · refine .inr ⟨hc, fun _ id hmem => ?_⟩
      have hlt := (h.midway.owned _ id hmem).1
      change m.stack.size - arguments - 1 + (arguments + 1) < m.stack.size at hlt
      omega
  · exact h.midway.enter htype hc.layout harity

theorem safe_callClosure (h : m.Busy past L a (arguments + 1) 1 none)
    (hc : c.Valid m.moment) : (callClosure c arguments).Safe past L a m :=
  (gives_callClosure_ready h hc nofun).mono (fun _ _ hready => .inl hready) fun _ _ hstop => hstop

theorem Closure.valid_of_unit {r : Routine} {kind} (hr : r.IsCompiled) (hunit : r.IsUnit kind)
    (serial : Nat) : Closure.Valid m.moment ⟨serial, r, #[]⟩ :=
  ⟨⟨r, hr, .self⟩, hunit.upvalueCount_eq.symm, nofun, fun _ _ _ _ hj => nomatch hj⟩

theorem safe_perform (h : m.Busy past L a 0 1 none) (n : Native) {arguments}
    (harguments : ∀ v ∈ arguments, v.Valid m.moment) : (perform n arguments).Safe past L a m := by
  refine gives_perform (fun v hv => .inl (h.goes (hv.elim (·.valid) (harguments v)))) (fun output => .inl ?_)
    (fun path => safe_load h.awaits _ path) h fun _ hf => h.faults hf
  have hprinted : ({ m with output } : Machine).Busy past L a 0 1 none :=
    ⟨h.sound.congr rfl rfl rfl rfl rfl h.sound.library, h.midway.congr rfl rfl rfl⟩
  exact hprinted.goes trivial

theorem safe_callNative (h : m.Busy past L a (arguments + 1) 1 none) (n : Native) :
    (callNative n arguments).Safe past L a m := by
  have hbusy : m.Busy past L a (1 + arguments) 1 none := Nat.add_comm arguments 1 ▸ h
  refine gives_callNative (safe_perform hbusy.drop.pop n fun v hv => ?_) fun _ hf => h.faults hf
  obtain ⟨i, hi, rfl⟩ := Array.mem_extract_iff_getElem.mp hv
  exact h.sound.stack _ (Array.getElem_mem _)

theorem safe_callValue (h : m.Busy past L a (arguments + 1) 1 none) : (callValue arguments).Safe past L a m := by
  have hvalid := h.top_valid (m.stack.size - 1 - arguments)
  exact gives_callValue (fun _ hc => safe_callClosure h (hc ▸ hvalid :)) (fun n _ => safe_callNative h n)
    (fun p hp => absurd hp (hvalid.ne_program p)) fun _ hf => h.faults hf

/-! ### Members -/

theorem safe_invoke (h : m.Busy past L a (arguments + 1) 1 none) (name : String) :
    (invoke name arguments).Safe past L a m := by
  refine gives_invoke (fun _ _ _ hc => safe_callClosure h (h.sound.property? hc)) (fun _ w _ hw => ?_)
    fun _ hf => h.faults hf
  refine safe_callValue ⟨h.sound.setSlot _ (h.sound.property? hw), h.midway.setSlot w fun g hg _ => ?_⟩
  have hlt := h.midway.base_add_lt hg
  omega

theorem safe_invokeParent (h : m.Busy past L a (arguments + 2) 1 none) (name : String) :
    (invokeParent name arguments).Safe past L a m := by
  have hbusy : (m.withStack m.stack.pop).Busy past L a (arguments + 1) 1 none := h.pop
  exact gives_invokeParent (fun _ _ _ hc => safe_callClosure hbusy (hbusy.sound.method? hc)) fun _ hf => hbusy.faults hf

/-! ### Variables -/

theorem settles_getGlobal (h : m.Busy past L a 0 1 none) (name : String) : (getGlobal name).Settles past L a m := by
  unfold Exec.Settles getGlobal
  rw [gives_bind, gives_get]
  cases hv : m.globals[name]? with
  | some v => exact h.goes (h.sound.globals name v hv)
  | none => exact h.faults id

theorem Machine.Busy.define (h : m.Busy past L a 0 0 none) (name : String) (hv : v.Valid m.moment) :
    (m.withGlobals (m.globals.insert name v)).Ready past L a :=
  Busy.ready ⟨h.sound.define name hv, h.midway.congr rfl rfl rfl⟩

theorem settles_setGlobal (h : m.Busy past L a 0 0 none) (name : String) (hv : v.Valid m.moment) :
    (setGlobal name v).Settles past L a m := by
  unfold Exec.Settles setGlobal
  rw [gives_bind, gives_get, gives_ite]
  exact ⟨fun _ => h.define name hv, fun _ => h.faults id⟩

theorem settles_writeCell (h : m.Busy past L a 0 0 none) (hv : v.Valid m.moment)
    (hspares : ∀ slot, (slot, id) ∈ m.cells.opened → ¬ m.moment.Guards slot) : (writeCell id v).Settles past L a m := by
  show Machine.Ready past L a { m with
    cells := (m.cells.write id v m.stack).1, stack := (m.cells.write id v m.stack).2 }
  unfold Cells.write
  split
  · rename_i slot hid
    refine Busy.ready ⟨h.sound.setSlot slot hv, h.midway.setSlot v fun g hg hobject heq => ?_⟩
    exact hspares slot ((h.sound.cells.opened_iff slot id).mpr hid) ⟨g, mem_calls.mp hg, hobject, heq.symm⟩
  · rename_i w hid
    exact Busy.ready ⟨h.sound.setClosed hv hid, h.midway.withCells fun _ _ hmem => .inl hmem⟩
  · exact h.ready

/-! ### Making functions -/

/-- What a capture refers to has been found, if it is in a slot, among the open cells. -/
def Capture.Finds (m : Machine) (f : Frame) (c : Capture) (id : CellId) : Prop :=
  if c.fromLocal then (f.base + c.index, id) ∈ m.cells.opened else id = f.closure.cells[c.index]?.getD 0

structure Gathers (past : Moment) (f : Frame) (m : Machine) (captures : List Capture) (ids : List CellId)
    (m' : Machine) : Prop where
  sound : m'.Sound past
  upholds : m.moment.Upholds m'.moment
  same : ∃ cells, m' = m.withCells cells
  kept : ∀ e ∈ m.cells.opened, e ∈ m'.cells.opened
  added : ∀ slot id, (slot, id) ∈ m'.cells.opened → (slot, id) ∈ m.cells.opened ∨
    ∃ c ∈ captures, c.fromLocal ∧ slot = f.base + c.index
  found : List.Forall₂ (Capture.Finds m' f) captures ids

theorem Capture.Finds.kept {c : Capture} (h : c.Finds m f id)
    (hkept : ∀ e ∈ m.cells.opened, e ∈ m'.cells.opened) : c.Finds m' f id := by
  unfold Capture.Finds at h ⊢
  split
  · rename_i hlocal
    rw [if_pos hlocal] at h
    exact hkept _ h
  · rename_i hlocal
    rw [if_neg hlocal] at h
    exact h

theorem Gathers.next {captures ids} (h : Gathers past f m captures ids m')
    (c : Capture) : (captureCell f c).Gives m' (fun id => Gathers past f m (captures ++ [c]) (ids ++ [id]))
      fun _ _ => False := by
  unfold captureCell
  by_cases hlocal : c.fromLocal = true
  · rw [if_pos hlocal, gives_modifyGet]
    have hc := h.sound.cells.capture (f.base + c.index)
    obtain ⟨hsound, hupholds⟩ := h.sound.captured hc
    refine ⟨hsound, h.upholds.trans hupholds, ?_, fun e he => hc.kept e (h.kept e he), fun slot id hmem => ?_, ?_⟩
    · obtain ⟨cells, rfl⟩ := h.same
      exact ⟨_, rfl⟩
    · rcases hc.added _ hmem with hold | hnew
      · refine (h.added slot id hold).imp_right ?_
        rintro ⟨c', hc', hslot⟩
        exact ⟨c', List.mem_append_left _ hc', hslot⟩
      · exact .inr ⟨c, List.mem_append_right _ List.mem_cons_self, hlocal, hnew⟩
    · refine List.rel_append (h.found.imp fun _ _ hfinds => hfinds.kept hc.kept) (.cons ?_ .nil)
      rw [Capture.Finds, if_pos hlocal]
      exact hc.mem
  · rw [if_neg hlocal]
    refine ⟨h.sound, h.upholds, h.same, h.kept, fun slot id hmem => ?_, List.rel_append h.found (.cons ?_ .nil)⟩
    · refine (h.added slot id hmem).imp_right ?_
      rintro ⟨c', hc', hslot⟩
      exact ⟨c', List.mem_append_left _ hc', hslot⟩
    · rw [Capture.Finds, if_neg hlocal]

theorem gives_captureCells_gathers (h : m.Sound past) (f : Frame) (captures : List Capture) :
    (captureCells f captures #[]).Gives m (fun ids m' => Gathers past f m captures ids.toList m') E := by
  refine gives_captureCells (P := fun done ids m' => Gathers past f m done ids.toList m') ?_
    fun c _ done ids m1 h1 => ?_
  · exact ⟨h, .of_ages (.refl _), ⟨m.cells, rfl⟩, fun _ he => he, fun _ _ hmem => .inl hmem, .nil⟩
  · simpa using h1.next c

end Mudscript
