import Mudscript.Proofs.OpenCells
import Mudscript.Proofs.Session
import Mudscript.Proofs.WellFormed

/-!
# Sound machines

A machine is sound if whatever it holds can be relied on, wherever it is held: every function is one
of a compiled unit and has a cell for each of its captures, and no program lies about that nobody is
going to run. Soundness says nothing of how the values are arranged on the stack, so it survives a
fault in the middle of an instruction.

The object under construction is in slot 0 of its call, and has to stay there. Functions may have
captured that slot, so a function that assigns to a captured variable must not have captured a slot
that is guarded in this way.

What is said of a machine is said in comparison with an earlier moment of the same machine, so that
what follows can be about the time in between. Soundness compares only the cells.
-/

namespace Mudscript

variable {id : CellId} {cells : Cells} {objects : Objects}

variable {c : Closure} {α : Type} {v : Value}

def Frame.IsObject (f : Frame) : Prop := f.closure.routine.kind = .object

def Program.IsCompiled (p : Program) : Prop := ∃ path source, compileObject path source = .ok p.routine

def Library.Sound (l : Library) : Prop :=
  ∀ (key : String) (p : Program), l.programs[key]? = some p → p.IsCompiled

/-- The cells and the calls of a machine at some time. -/
structure Moment where
  cells : Cells := {}
  frames : Array Frame := #[]

def Machine.moment (m : Machine) : Moment := ⟨m.cells, m.frames⟩

variable {now later : Moment}

/-- A slot that holds the object under construction of a call. -/
def Moment.Guards (now : Moment) (slot : Nat) : Prop := ∃ f ∈ now.frames, f.IsObject ∧ f.base = slot

structure Closure.Valid (now : Moment) (c : Closure) : Prop where
  compiled : ∃ unit : Routine, unit.IsCompiled ∧ unit.Within c.routine
  size_eq : c.cells.size = c.routine.upvalueCount
  lt_size : ∀ id ∈ c.cells, id < now.cells.all.size
  spares : ∀ j id slot, c.routine.Assigns j → c.cells[j]? = some id → (slot, id) ∈ now.cells.opened →
    ¬ now.Guards slot

def Value.Valid (now : Moment) : Value → Prop
  | .closure c => c.Valid now
  | .program _ => False
  | _ => True

structure Object.Valid (now : Moment) (o : Object) : Prop where
  fields : ∀ e ∈ o.fields, e.2.Valid now
  methods : ∀ e ∈ o.methods, e.2.Valid now

theorem Closure.Valid.layout (h : c.Valid now) : ∃ shape, c.routine.Layout shape := by
  obtain ⟨unit, hunit, hwithin⟩ := h.compiled
  exact hunit.verified c.routine hwithin

theorem Value.Valid.ne_program (h : v.Valid now) (p : Program) : v ≠ .program p := by
  rintro rfl
  exact h

theorem Value.valid_getD {v? : Option Value} (h : ∀ v, v? = some v → v.Valid now) : (v?.getD .nil).Valid now := by
  cases v? with
  | none => trivial
  | some v => exact h v rfl

namespace Machine

inductive Contains (m : Machine) : Value → Prop
  | stack {v : Value} : v ∈ m.stack → Contains m v
  | global {name : String} {v : Value} : m.globals[name]? = some v → Contains m v
  | field {o name v} : o ∈ m.objects → (name, v) ∈ o.fields → Contains m v
  | method {o name c} : o ∈ m.objects → (name, c) ∈ o.methods → Contains m (.closure c)
  | cell {v : Value} : .closed v ∈ m.cells.all → Contains m v
  | frame {f} : f ∈ m.frames → Contains m (.closure f.closure)

structure Sound (past : Moment) (m : Machine) : Prop where
  cells : m.cells.Consistent
  since : past.cells.Ages m.cells
  stack : ∀ v ∈ m.stack, v.Valid m.moment
  globals : ∀ (name : String) v, m.globals[name]? = some v → v.Valid m.moment
  objects : ∀ o ∈ m.objects, o.Valid m.moment
  closed : ∀ v, .closed v ∈ m.cells.all → v.Valid m.moment
  frames : ∀ f ∈ m.frames, f.closure.Valid m.moment
  library : m.library.Sound

theorem Sound.values {past : Moment} {m : Machine} (h : m.Sound past) (hv : m.Contains v) : v.Valid m.moment := by
  cases hv with
  | stack hv => exact h.stack v hv
  | global hv => exact h.globals _ v hv
  | field ho hv => exact (h.objects _ ho).fields _ hv
  | method ho hc => exact (h.objects _ ho).methods _ hc
  | cell hv => exact h.closed v hv
  | frame hf => exact h.frames _ hf

end Machine

/-! ### What validity rests on -/

/-- What is valid at one moment is valid at another: cells stay what they are, and where a slot is
guarded that was not, no cell of old is open. -/
structure Moment.Upholds (now later : Moment) : Prop where
  ages : now.cells.Ages later.cells
  guarded : ∀ slot id, id < now.cells.all.size → (slot, id) ∈ later.cells.opened → later.Guards slot →
    now.Guards slot

theorem Moment.Upholds.of_ages {cells' : Cells} {frames} (hages : cells.Ages cells') :
    Upholds ⟨cells, frames⟩ ⟨cells', frames⟩ := ⟨hages, fun _ _ _ _ hslot => hslot⟩

theorem Moment.Upholds.trans {last : Moment} (h : now.Upholds later) (h' : later.Upholds last) : now.Upholds last := by
  refine ⟨h.ages.trans h'.ages, fun slot id hlt hmem hslot => ?_⟩
  have hlt' := Nat.lt_of_lt_of_le hlt h.ages.size_le
  exact h.guarded slot id hlt (h'.ages.opened slot id hlt' hmem) (h'.guarded slot id hlt' hmem hslot)

theorem Closure.Valid.mono (h : c.Valid now) (hm : now.Upholds later) : c.Valid later := by
  refine ⟨h.compiled, h.size_eq, fun id hid => Nat.lt_of_lt_of_le (h.lt_size id hid) hm.ages.size_le,
    fun j id slot hassigns hid hopened hslot => ?_⟩
  have hlt := h.lt_size id (Array.mem_of_getElem? hid)
  exact h.spares j id slot hassigns hid (hm.ages.opened slot id hlt hopened)
    (hm.guarded slot id hlt hopened hslot)

theorem Value.Valid.mono (h : v.Valid now) (hm : now.Upholds later) : v.Valid later := by
  cases v with
  | closure c => exact Closure.Valid.mono h hm
  | program p => exact h
  | _ => trivial

theorem Object.Valid.mono {o : Object} (h : o.Valid now) (hm : now.Upholds later) : o.Valid later :=
  ⟨fun e he => (h.fields e he).mono hm, fun e he => (h.methods e he).mono hm⟩

namespace Machine

variable {past : Moment} {m m' : Machine}

theorem Sound.moves (h : m.Sound past) {frames} (hcells : cells.Consistent) (hm : m.moment.Upholds ⟨cells, frames⟩)
    (hclosed : ∀ v, .closed v ∈ cells.all → .closed v ∈ m.cells.all ∨ v.Valid ⟨cells, frames⟩)
    (hframes : ∀ f ∈ frames, (∃ g ∈ m.frames, g.closure = f.closure) ∨ f.closure.Valid ⟨cells, frames⟩) :
    ({ m with cells, frames } : Machine).Sound past where
  cells := hcells
  since := h.since.trans hm.ages
  stack v hv := (h.stack v hv).mono hm
  globals name v hv := (h.globals name v hv).mono hm
  objects o ho := (h.objects o ho).mono hm
  closed v hv := (hclosed v hv).elim (fun hold => (h.closed v hold).mono hm) id
  frames f hf := by
    rcases hframes f hf with ⟨g, hg, hclosure⟩ | hvalid
    · exact hclosure ▸ (h.frames g hg).mono hm
    · exact hvalid
  library := h.library

/-! ### Changes that keep a machine sound -/

theorem Sound.withStack (h : m.Sound past) {stack}
    (hstack : ∀ v ∈ stack, v ∈ m.stack ∨ v.Valid m.moment) : (m.withStack stack).Sound past :=
  { h with stack := fun v hv => (hstack v hv).elim (h.stack v) id }

theorem Sound.push (h : m.Sound past) (hv : v.Valid m.moment) : (m.withStack (m.stack.push v)).Sound past := by
  refine h.withStack fun w hw => ?_
  rcases Array.mem_push.mp hw with hw | rfl
  · exact .inl hw
  · exact .inr hv

theorem mem_of_mem_pop {xs : Array α} {x : α} (h : x ∈ xs.pop) : x ∈ xs := by
  obtain ⟨i, hi⟩ := Array.mem_iff_getElem?.mp h
  rw [Array.getElem?_pop] at hi
  split at hi
  · exact Array.mem_of_getElem? hi
  · cases hi

theorem Sound.pop (h : m.Sound past) : (m.withStack m.stack.pop).Sound past :=
  h.withStack fun _ hv => .inl (mem_of_mem_pop hv)

theorem mem_of_mem_shrink {xs : Array α} {x : α} {n : Nat} (h : x ∈ xs.shrink n) : x ∈ xs := by
  rw [Array.shrink_eq_take] at h
  obtain ⟨i, hi, rfl⟩ := Array.mem_extract_iff_getElem.mp h
  exact Array.getElem_mem _

theorem Sound.shrink (h : m.Sound past) (n : Nat) : (m.withStack (m.stack.shrink n)).Sound past :=
  h.withStack fun _ hv => .inl (mem_of_mem_shrink hv)

section

variable (h : m.Sound past)

include h

theorem Sound.setSlot (slot : Nat) (hv : v.Valid m.moment) :
    (m.withStack (m.stack.setIfInBounds slot v)).Sound past := by
  refine h.withStack fun w hw => ?_
  rcases Array.mem_or_eq_of_mem_setIfInBounds hw with hw | rfl
  · exact .inl hw
  · exact .inr hv

theorem Sound.valid_of_getElem? {i : Nat} (hv : m.stack[i]? = some v) :
    v.Valid m.moment := h.stack v (Array.mem_of_getElem? hv)

theorem Sound.congr (hstack : m'.stack = m.stack) (hglobals : m'.globals = m.globals)
    (hobjects : m'.objects = m.objects) (hcells : m'.cells = m.cells) (hframes : m'.frames = m.frames)
    (hlibrary : m'.library.Sound) : m'.Sound past := by
  obtain ⟨settings, library, globals, objects, cells, stack, frames, output, events, serial⟩ := m'
  cases hstack
  cases hglobals
  cases hobjects
  cases hcells
  cases hframes
  exact { h with library := hlibrary }

theorem Sound.withSerial (n : Nat) : (m.withSerial n).Sound past := { h with }

theorem Sound.define (name : String) (hv : v.Valid m.moment) :
    (m.withGlobals (m.globals.insert name v)).Sound past := by
  refine { h with globals := fun name' w hw => ?_ }
  change (m.globals.insert name v)[name']? = some w at hw
  rw [Std.HashMap.getElem?_insert] at hw
  split at hw
  · cases hw
    exact hv
  · exact h.globals name' w hw

end

/-! ### Objects -/

end Machine

theorem Members.mem_put {members : Members α} {name : String} {x : α} {e : String × α}
    (h : e ∈ members.put name x) : e ∈ members ∨ e.2 = x := by
  induction members with
  | nil => exact .inr (by rw [List.mem_singleton.mp h])
  | cons entry rest ih =>
    rw [put] at h
    split at h
    · rcases List.mem_cons.mp h with rfl | h
      · exact .inr rfl
      · exact .inl (List.mem_cons_of_mem _ h)
    · rcases List.mem_cons.mp h with rfl | h
      · exact .inl List.mem_cons_self
      · exact (ih h).imp_left (List.mem_cons_of_mem _)

theorem Members.mem_of_get? {members : Members α} {name : String} {x : α}
    (h : members.get? name = some x) : ∃ e ∈ members, e.2 = x := by
  induction members with
  | nil => cases h
  | cons entry rest ih =>
    rw [get?] at h
    split at h
    · cases h
      exact ⟨entry, List.mem_cons_self, rfl⟩
    · obtain ⟨e, he, heq⟩ := ih h
      exact ⟨e, List.mem_cons_of_mem _ he, heq⟩

theorem Object.own?_cases {o : Object} {name : String} (h : o.own? name = some v) :
    (∃ e ∈ o.fields, e.2 = v) ∨ ∃ e ∈ o.methods, .closure e.2 = v := by
  unfold Object.own? at h
  split at h
  · rename_i w hw
    cases h
    exact .inl (Members.mem_of_get? hw)
  · obtain ⟨c, hc, rfl⟩ := Option.map_eq_some_iff.mp h
    obtain ⟨e, he, rfl⟩ := Members.mem_of_get? hc
    exact .inr ⟨e, he, rfl⟩

namespace Object

variable {o : Object} {name : String}

theorem Valid.putField (h : o.Valid now) (hv : v.Valid now) : (o.putField name v).Valid now :=
  ⟨fun e he => (Members.mem_put he).elim (h.fields e) fun heq => heq ▸ hv, h.methods⟩

theorem Valid.putMethod (h : o.Valid now) (hc : c.Valid now) : (o.putMethod name c).Valid now :=
  ⟨h.fields, fun e he => (Members.mem_put he).elim (h.methods e) fun heq => heq ▸ hc⟩

end Object

namespace Machine

variable {past : Moment} {m m' : Machine}

theorem exists_of_search {o : ObjectId} {f} {x : α}
    (h : objects.search o f = some x) : ∃ object ∈ objects, f object = some x := by
  obtain ⟨i, _, hi⟩ := List.exists_of_findSome?_eq_some h
  obtain ⟨object, hobject, hx⟩ := Option.bind_eq_some_iff.mp hi
  exact ⟨object, Array.mem_of_getElem? hobject, hx⟩

section

variable (h : m.Sound past)

include h

theorem Sound.property? {o : ObjectId} {name : String}
    (hv : Objects.property? m.objects o name = some v) : v.Valid m.moment := by
  obtain ⟨object, hobject, hown⟩ := exists_of_search hv
  rcases Object.own?_cases hown with ⟨e, he, rfl⟩ | ⟨e, he, rfl⟩
  · exact (h.objects object hobject).fields e he
  · exact (h.objects object hobject).methods e he

theorem Sound.method? {o : ObjectId} {name : String}
    (hc : Objects.method? m.objects o name = some c) : c.Valid m.moment := by
  obtain ⟨object, hobject, hmethod⟩ := exists_of_search hc
  obtain ⟨e, he, rfl⟩ := Members.mem_of_get? hmethod
  exact (h.objects object hobject).methods e he

theorem Sound.withObjects (hobjects : ∀ o ∈ objects, o.Valid m.moment) :
    (m.withObjects objects).Sound past := { h with objects := hobjects }

theorem Sound.modifyObject (o : ObjectId) {f}
    (hf : ∀ object : Object, object.Valid m.moment → (f object).Valid m.moment) :
    (m.withObjects (m.objects.modify o f)).Sound past := by
  refine h.withObjects fun object hobject => ?_
  obtain ⟨i, hi⟩ := Array.mem_iff_getElem?.mp hobject
  rw [Array.getElem?_modify] at hi
  split at hi
  · obtain ⟨old, hold, rfl⟩ := Option.map_eq_some_iff.mp hi
    exact hf old (h.objects old (Array.mem_of_getElem? hold))
  · exact h.objects object (Array.mem_of_getElem? hi)

/-! ### Calls -/

theorem Sound.withFrames {frames} (hframes : ∀ f ∈ frames, (∃ g ∈ m.frames, g.closure = f.closure ∧ g.base = f.base) ∨
      f.closure.Valid m.moment ∧ (f.IsObject → ∀ id : CellId, (f.base, id) ∉ m.cells.opened)) :
    (m.withFrames frames).Sound past := by
  have hm : m.moment.Upholds ⟨m.cells, frames⟩ := by
    refine ⟨.refl _, ?_⟩
    rintro slot id hlt hopened ⟨f, hf, hobject, rfl⟩
    rcases hframes f hf with ⟨g, hg, hclosure, hbase⟩ | ⟨_, hnone⟩
    · exact ⟨g, hg, (congrArg (fun c : Closure => c.routine.kind) hclosure).trans hobject, hbase⟩
    · exact absurd hopened (hnone hobject id)
  refine h.moves h.cells hm (fun v hv => .inl hv) fun f hf => ?_
  rcases hframes f hf with ⟨g, hg, hclosure, _⟩ | ⟨hvalid, _⟩
  · exact .inl ⟨g, hg, hclosure⟩
  · exact .inr (hvalid.mono hm)

/-! ### Cells -/

theorem Sound.withCells (hcells : cells.Consistent) (hages : m.cells.Ages cells)
    (hclosed : ∀ v, .closed v ∈ cells.all → .closed v ∈ m.cells.all ∨ v.Valid m.moment) :
    (m.withCells cells).Sound past :=
  h.moves hcells (.of_ages hages) (fun v hv => (hclosed v hv).imp_right (·.mono (.of_ages hages)))
    fun f hf => .inl ⟨f, hf, rfl⟩

theorem Sound.closeFrom (height : Nat) : (m.withCells (m.cells.closeFrom height m.stack)).Sound past := by
  have hc := h.cells.closeFrom height m.stack
  refine h.withCells hc.consistent hc.ages fun v hv => ?_
  obtain ⟨id, hid⟩ := Array.mem_iff_getElem?.mp hv
  by_cases hclosed : ∃ slot, (slot, id) ∈ m.cells.opened ∧ height ≤ slot
  · obtain ⟨slot, hmem, hge⟩ := hclosed
    have heq := (hc.closed slot id hmem hge).symm.trans hid
    injection heq with heq
    injection heq with heq
    subst heq
    exact .inr (Value.valid_getD fun w hw => h.valid_of_getElem? hw)
  · have hkept := hc.kept id fun slot hmem => Nat.lt_of_not_le fun hge => hclosed ⟨slot, hmem, hge⟩
    exact .inl (Array.mem_of_getElem? (hkept.symm.trans hid))

theorem Sound.leave (base : Nat) : (m.leave base).Sound past ∧ m.moment.Upholds (m.leave base).moment := by
  have hclosed := h.pop.closeFrom base
  constructor
  · have hcalls : ((m.withStack m.stack.pop).withCells (m.cells.closeFrom base m.stack.pop)).withFrames
        m.frames.pop |>.Sound past :=
      hclosed.withFrames fun f hf => .inl ⟨f, mem_of_mem_pop hf, rfl, rfl⟩
    exact hcalls.shrink base
  · refine ⟨(h.cells.closeFrom base m.stack.pop).ages, fun slot _ _ _ ⟨f, hf, hslot⟩ => ?_⟩
    exact ⟨f, mem_of_mem_pop hf, hslot⟩

theorem Sound.captured {slot : Nat} (hc : m.cells.Captures slot id cells) :
    (m.withCells cells).Sound past ∧ m.moment.Upholds (m.withCells cells).moment :=
  ⟨h.withCells hc.consistent hc.ages fun v hv => .inl (hc.closed v hv), .of_ages hc.ages⟩

theorem Sound.read (id : CellId) : (m.cells.read id m.stack).Valid m.moment := by
  unfold Cells.read
  split
  · exact Value.valid_getD fun w hw => h.valid_of_getElem? hw
  · rename_i v hv
    exact h.closed v (Array.mem_of_getElem? hv)
  · trivial

theorem Sound.setClosed {w : Value} (hv : v.Valid m.moment) (hid : m.cells.all[id]? = some (.closed w)) :
    (m.withCells { m.cells with all := m.cells.all.setIfInBounds id (.closed v) }).Sound past := by
  refine h.withCells (h.cells.setClosed hid)
    ⟨Nat.le_of_eq (Array.size_setIfInBounds ..).symm, fun _ _ _ hopened => hopened⟩ fun u hu => ?_
  rcases Array.mem_or_eq_of_mem_setIfInBounds hu with hold | heq
  · exact .inl hold
  · cases heq
    exact .inr hv

end

end Machine

/-! ### Programs -/

namespace Library

variable {l : Library} {key : String} {serial : Nat}

/-- What comes of a request is a program that was compiled, and a library that is still sound. -/
structure Loading.Sound (loading : Loading) : Prop where
  result : ∀ p, loading.result = .ok p → p.IsCompiled
  library : loading.library.Sound

theorem Sound.comes {fresh : Prop} {loading : Loading} (h : l.Sound) (hcomes : loading.Comes l key serial fresh) :
    loading.Sound := by
  cases hcomes with
  | failed => exact ⟨nofun, h⟩
  | had hp =>
    refine ⟨fun q hq => ?_, h⟩
    cases hq
    exact h _ _ hp
  | @compiled text r _ _ hcompiled =>
    have hp : Program.IsCompiled ⟨serial, r⟩ := ⟨key, text, hcompiled⟩
    refine ⟨fun p heq => ?_, fun key' p hp' => ?_⟩
    · cases heq
      exact hp
    · rw [Std.HashMap.getElem?_insert] at hp'
      split at hp'
      · cases hp'
        exact hp
      · exact h key' p hp'

end Library

theorem Machine.Sound.afterLoading {past : Moment} {m : Machine} (h : m.Sound past) {loading : Library.Loading}
    (hloading : loading.Sound) : (m.afterLoading loading).Sound past :=
  h.congr rfl rfl rfl rfl rfl hloading.library

end Mudscript
