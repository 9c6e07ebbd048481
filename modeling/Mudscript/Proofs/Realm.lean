import Mudscript.Proofs.Execution
import Mudscript.Proofs.Footprint
import Mudscript.Proofs.Vocabulary

/-!
# What a run can get hold of

A run works with the values on the stack, and with what it reaches from there: the cells of its
functions, the members of its objects and of their parents, and the programs of the library. A realm
is a part of the machine that is closed in this sense. It has all objects and cells from some place in
the store on, and nothing that is older, the global variables or not, and functions of certain routines.

A machine inside a realm stays inside, whatever it executes, and however that ends.
-/

namespace Mudscript

open Machine Exec

variable {id : CellId} {loading : Library.Loading} {p : Program} {E : Stop → Machine → Prop} {name : String}

variable {c : Closure} {o : ObjectId} {v : Value}

structure Realm where
  /-- The first of its objects. -/
  object : ObjectId
  /-- The first of its cells. -/
  cell : CellId
  /-- The global variables belong to it. -/
  globals : Prop
  native : Native → Prop
  /-- The routines of its functions, given a library. -/
  routine : Library → Routine → Prop
  /-- What is known of its functions besides. -/
  closure : Closure → Prop

namespace Realm

/-- What is asked of the routines of a realm. -/
structure Lawful (R : Realm) : Prop where
  grows : ∀ {l l' : Library} {r : Routine}, l.Grows l' → R.routine l r → R.routine l' r
  enrolled : ∀ {l : Library} {key source : String} {p : Program}, compileObject key source = .ok p.routine →
    l.programs[key]? = some p → R.routine l p.routine
  nested : ∀ {l : Library} {r q : Routine} {index : Nat}, R.routine l r →
    r.code.constants[index]? = some (.routine q) → R.routine l q
  layout : ∀ {l : Library} {r : Routine}, R.routine l r → ∃ shape, r.Layout shape
  silent : ∀ {l : Library} {r : Routine} {offset : Nat} {i : Instruction}, R.routine l r →
    r.code.At offset i → i.opcode.isGlobal = true → R.globals
  bare : ∀ serial r, R.closure ⟨serial, r, #[]⟩

variable (R : Realm) (l : Library)

structure HasClosure (c : Closure) : Prop where
  routine : R.routine l c.routine
  size_eq : c.cells.size = c.routine.upvalueCount
  cells : ∀ id ∈ c.cells, R.cell ≤ id
  known : R.closure c

structure HasProgram (p : Program) : Prop where
  routine : R.routine l p.routine
  upvalueCount_eq : p.routine.upvalueCount = 0

def Has : Value → Prop
  | .object o => R.object ≤ o
  | .closure c => R.HasClosure l c
  | .native n => R.native n
  | .program p => R.HasProgram l p
  | _ => True

structure HasObject (object : Object) : Prop where
  fields : ∀ e ∈ object.fields, R.Has l e.2
  methods : ∀ e ∈ object.methods, R.HasClosure l e.2
  parent : ∀ p, object.parent = some p → R.object ≤ p

def HasPrograms : Prop := ∀ (key : String) (p : Program), l.programs[key]? = some p → R.HasProgram l p

end Realm

/-- A machine that has nothing to do with what is outside of a realm. -/
structure Machine.Inside (R : Realm) (m : Machine) : Prop where
  stack : ∀ v ∈ m.stack, R.Has m.library v
  globals : R.globals → ∀ (name : String) v, m.globals[name]? = some v → R.Has m.library v
  objects : ∀ (o : ObjectId) object, R.object ≤ o → m.objects[o]? = some object →
    R.HasObject m.library object
  cells : ∀ (id : CellId) v, R.cell ≤ id → m.cells.all[id]? = some (.closed v) → R.Has m.library v
  opened : ∀ slot id, (slot, id) ∈ m.cells.opened → R.cell ≤ id
  frames : ∀ f ∈ m.frames, R.HasClosure m.library f.closure ∧ ∃ i, f.code.At f.position i
  object_le : R.object ≤ m.objects.size
  cell_le : R.cell ≤ m.cells.all.size
  programs : R.HasPrograms m.library

def Exec.MakesKnown (R : Realm) (m : Machine) (f : Frame) : Instruction → Prop
  | .closure index captures => ∀ {q ids m1}, f.code.routineAt? index = some q →
      captureCells f captures #[] m = .ok ids m1 → ∀ serial, R.closure ⟨serial, q, ids⟩
  | _ => True

def Exec.StaysIn (R : Realm) (m : Machine) (x : Exec Unit) : Prop :=
  x.Gives m (fun _ m' => m'.Inside R) fun _ m' => m'.Inside R

variable {R : Realm} {l l' : Library} {m m' : Machine} {f : Frame} {i : Instruction}

/-! ### Growing libraries -/

namespace Realm.Lawful

variable (hR : R.Lawful) (hgrows : l.Grows l')

include hR hgrows

theorem hasClosure (h : R.HasClosure l c) : R.HasClosure l' c :=
  ⟨hR.grows hgrows h.routine, h.size_eq, h.cells, h.known⟩

theorem hasProgram (h : R.HasProgram l p) : R.HasProgram l' p :=
  ⟨hR.grows hgrows h.routine, h.upvalueCount_eq⟩

theorem has (h : R.Has l v) : R.Has l' v := by
  cases v with
  | closure c => exact hR.hasClosure hgrows h
  | program p => exact hR.hasProgram hgrows h
  | _ => exact h

theorem hasObject {object : Object} (h : R.HasObject l object) : R.HasObject l' object :=
  ⟨fun e he => hR.has hgrows (h.fields e he), fun e he => hR.hasClosure hgrows (h.methods e he), h.parent⟩

end Realm.Lawful

namespace Library

structure Loading.In (R : Realm) (l : Library) (loading : Loading) : Prop where
  grows : l.Grows loading.library
  result : ∀ p, loading.result = .ok p → R.HasProgram loading.library p
  programs : R.HasPrograms loading.library

variable {key : String} {serial : Nat}

theorem Loading.Comes.stays {loading : Loading} (hcomes : loading.Comes l key serial (l.programs[key]? = none))
    (hR : R.Lawful) (h : R.HasPrograms l) : loading.In R l := by
  have hgrows := hcomes.enrolls.toGrows
  have hkept : ∀ p, loading.result = .ok p → loading.library.programs[key]? = some p := fun p => hcomes.kept
  cases hcomes with
  | failed => exact ⟨hgrows, nofun, h⟩
  | had hp =>
    refine ⟨hgrows, fun q hq => ?_, h⟩
    cases hq
    exact h _ _ hp
  | @compiled _ r _ _ hcompiled =>
    have hprogram := Realm.HasProgram.mk (hR.enrolled (p := ⟨serial, r⟩) hcompiled (hkept _ rfl))
      (isUnit_of_compileObject hcompiled).upvalueCount_eq
    refine ⟨hgrows, fun p hp => ?_, fun key' p hp => ?_⟩
    · cases hp
      exact hprogram
    · rw [Std.HashMap.getElem?_insert] at hp
      split at hp
      · cases hp
        exact hprogram
      · exact hR.hasProgram hgrows (h key' p hp)

end Library

theorem Realm.has_of_isPlain (h : v.IsPlain) : R.Has l v := by
  cases v with
  | closure _ | program _ | native _ | object _ => exact h.elim
  | _ => trivial

/-! ### Changes -/

namespace Machine.Inside

variable (h : m.Inside R)

include h

theorem withStack {stack} (hstack : ∀ v ∈ stack, v ∈ m.stack ∨ R.Has m.library v) : (m.withStack stack).Inside R :=
  { h with stack := fun v hv => (hstack v hv).elim (h.stack v) fun hv => hv }

theorem push (hv : R.Has m.library v) : (m.withStack (m.stack.push v)).Inside R := by
  apply h.withStack
  intro w hw
  rcases Array.mem_push.mp hw with hw | rfl
  · exact .inl hw
  · exact .inr hv

theorem pop : (m.withStack m.stack.pop).Inside R :=
  h.withStack fun _ hv => .inl (mem_of_mem_pop hv)

theorem shrink (n : Nat) : (m.withStack (m.stack.shrink n)).Inside R :=
  h.withStack fun _ hv => .inl (mem_of_mem_shrink hv)

theorem setSlot (slot : Nat) (hv : R.Has m.library v) : (m.withStack (m.stack.setIfInBounds slot v)).Inside R := by
  apply h.withStack
  intro w hw
  rcases Array.mem_or_eq_of_mem_setIfInBounds hw with hw | rfl
  · exact .inl hw
  · exact .inr hv

theorem slot (slot : Nat) : R.Has m.library (m.stack[slot]?.getD .nil) := by
  cases hv : m.stack[slot]? with
  | none => trivial
  | some v => exact h.stack v (Array.mem_of_getElem? hv)

theorem back : R.Has m.library (m.stack.back?.getD .nil) := by
  rw [Array.back?_eq_getElem?]
  exact h.slot _

theorem congr (hstack : m'.stack = m.stack) (hglobals : m'.globals = m.globals)
    (hobjects : m'.objects = m.objects) (hcells : m'.cells = m.cells) (hframes : m'.frames = m.frames)
    (hlibrary : m'.library = m.library) : m'.Inside R := by
  obtain ⟨settings, library, globals, objects, cells, stack, frames, output, events, serial⟩ := m'
  cases hstack
  cases hglobals
  cases hobjects
  cases hcells
  cases hframes
  cases hlibrary
  exact ⟨h.stack, h.globals, h.objects, h.cells, h.opened, h.frames, h.object_le, h.cell_le, h.programs⟩

theorem withSerial (n : Nat) : (m.withSerial n).Inside R := h.congr rfl rfl rfl rfl rfl rfl

theorem afterLoading (hR : R.Lawful) (hloading : loading.In R m.library) : (m.afterLoading loading).Inside R where
  stack v hv := hR.has hloading.grows (h.stack v hv)
  globals hglobals name v hv := hR.has hloading.grows (h.globals hglobals name v hv)
  objects o object ho hobject := hR.hasObject hloading.grows (h.objects o object ho hobject)
  cells id v hid hv := hR.has hloading.grows (h.cells id v hid hv)
  opened := h.opened
  frames f hf := ⟨hR.hasClosure hloading.grows (h.frames f hf).1, (h.frames f hf).2⟩
  object_le := h.object_le
  cell_le := h.cell_le
  programs := hloading.programs

theorem define (name : String) (hv : R.Has m.library v) : (m.withGlobals (m.globals.insert name v)).Inside R := by
  refine { h with globals := fun hglobals name' w hw => ?_ }
  change (m.globals.insert name v)[name']? = some w at hw
  rw [Std.HashMap.getElem?_insert] at hw
  split at hw
  · cases hw
    exact hv
  · exact h.globals hglobals name' w hw

/-! ### Objects -/

theorem modifyObject (o : ObjectId) {g}
    (hg : ∀ object : Object, R.HasObject m.library object → R.HasObject m.library (g object)) :
    (m.withObjects (m.objects.modify o g)).Inside R := by
  refine { h with objects := fun o' object ho' hobject => ?_, object_le := ?_ }
  · change (m.objects.modify o g)[o']? = some object at hobject
    rw [Array.getElem?_modify] at hobject
    split at hobject
    · obtain ⟨old, hold, rfl⟩ := Option.map_eq_some_iff.mp hobject
      exact hg old (h.objects o' old ho' hold)
    · exact h.objects o' object ho' hobject
  · show R.object ≤ (m.objects.modify o g).size
    rw [Array.size_modify]
    exact h.object_le

theorem putField (o : ObjectId) (name : String) (hv : R.Has m.library v) :
    (m.withObjects (m.objects.modify o (·.putField name v))).Inside R := by
  apply h.modifyObject
  intro object hobject
  refine ⟨fun e he => ?_, hobject.methods, hobject.parent⟩
  rcases Members.mem_put he with he | heq
  · exact hobject.fields e he
  · exact heq ▸ hv

theorem putMethod (o : ObjectId) (name : String)
    (hc : R.HasClosure m.library c) : (m.withObjects (m.objects.modify o (·.putMethod name c))).Inside R := by
  apply h.modifyObject
  intro object hobject
  refine ⟨hobject.fields, fun e he => ?_, hobject.parent⟩
  rcases Members.mem_put he with he | heq
  · exact hobject.methods e he
  · exact heq ▸ hc

theorem link (o : ObjectId) {p : ObjectId} (hp : R.object ≤ p) : (m.withObjects (m.objects.link o p)).Inside R := by
  apply h.modifyObject
  intro object hobject
  refine ⟨hobject.fields, hobject.methods, fun p' hp' => ?_⟩
  cases hp'
  exact hp

theorem pushObject (name : String) : (m.withObjects (m.objects.push { name })).Inside R := by
  refine { h with objects := fun o object ho hobject => ?_, object_le := ?_ }
  · change (m.objects.push { name })[o]? = some object at hobject
    rw [Array.getElem?_push] at hobject
    split at hobject
    · cases hobject
      exact ⟨nofun, nofun, nofun⟩
    · exact h.objects o object ho hobject
  · show R.object ≤ (m.objects.push { name }).size
    rw [Array.size_push]
    exact Nat.le_succ_of_le h.object_le

theorem parent {p : ObjectId} (ho : R.object ≤ o) (hp : m.objects.parent? o = some p) : R.object ≤ p := by
  obtain ⟨object, hobject, hparent⟩ := Option.bind_eq_some_iff.mp hp
  exact (h.objects o object ho hobject).parent p hparent

theorem le_of_mem_chain {n : Nat} (ho : R.object ≤ o) {o' : ObjectId}
    (hmem : o' ∈ m.objects.chainUpTo n o) : R.object ≤ o' := by
  induction n generalizing o with
  | zero => cases hmem
  | succ n ih =>
    rw [Objects.chainUpTo] at hmem
    split at hmem
    · cases hmem
    · rename_i object hobject
      split at hmem
      · exact List.mem_singleton.mp hmem ▸ ho
      · rename_i p hparent
        rcases List.mem_cons.mp hmem with rfl | hmem
        · exact ho
        · exact ih ((h.objects o object ho hobject).parent p hparent) hmem

theorem exists_of_search {α : Type} {g} {x : α} (ho : R.object ≤ o) (hx : m.objects.search o g = some x) :
    ∃ object, R.HasObject m.library object ∧ g object = some x := by
  obtain ⟨o', hmem, ho'⟩ := List.exists_of_findSome?_eq_some hx
  obtain ⟨object, hobject, hg⟩ := Option.bind_eq_some_iff.mp ho'
  exact ⟨object, h.objects o' object (h.le_of_mem_chain ho hmem) hobject, hg⟩

theorem method? (ho : R.object ≤ o) (hc : m.objects.method? o name = some c) : R.HasClosure m.library c := by
  obtain ⟨object, hobject, hmethod⟩ := h.exists_of_search ho hc
  obtain ⟨e, he, rfl⟩ := Members.mem_of_get? hmethod
  exact hobject.methods e he

theorem property? (ho : R.object ≤ o) (hv : m.objects.property? o name = some v) : R.Has m.library v := by
  obtain ⟨object, hobject, hown⟩ := h.exists_of_search ho hv
  rcases Object.own?_cases hown with ⟨e, he, rfl⟩ | ⟨e, he, rfl⟩
  · exact hobject.fields e he
  · exact hobject.methods e he

/-! ### Calls -/

theorem withFrames {frames} (hframes : ∀ f ∈ frames, R.HasClosure m.library f.closure ∧ ∃ i, f.code.At f.position i) :
    (m.withFrames frames).Inside R :=
  { h with frames := hframes }

theorem goTo (hback : m.frames.back? = some f) {position : Nat}
    (hat : ∃ i, f.code.At position i) : (m.goTo position).Inside R := by
  apply h.withFrames
  intro g hg
  obtain ⟨k, hk⟩ := Array.mem_iff_getElem?.mp hg
  rw [Array.getElem?_modify] at hk
  split at hk
  · rename_i hlast
    obtain ⟨old, hold, rfl⟩ := Option.map_eq_some_iff.mp hk
    rw [Array.back?_eq_getElem?, hlast, hold] at hback
    cases hback
    exact ⟨(h.frames _ (Array.mem_of_getElem? hold)).1, hat⟩
  · exact h.frames g (Array.mem_of_getElem? hk)

/-! ### Cells -/

omit h in
theorem mem_closeFrom {cells : Cells} {height : Nat} {stack}
    (h : (cells.closeFrom height stack).all[id]? = some (.closed v)) :
    cells.all[id]? = some (.closed v) ∨ ∃ slot, v = Cells.slotValue stack slot := by
  unfold Cells.closeFrom at h
  dsimp only at h
  generalize cells.opened.dropWhile _ = entries at h
  generalize cells.all = all at h ⊢
  induction entries generalizing all with
  | nil => exact .inl h
  | cons entry entries ih =>
    rcases ih _ h with h | h
    · rw [Array.getElem?_setIfInBounds] at h
      split at h
      · split at h
        · cases h
          exact .inr ⟨_, rfl⟩
        · cases h
      · exact .inl h
    · exact .inr h

theorem closeFrom (height : Nat) : (m.withCells (m.cells.closeFrom height m.stack)).Inside R := by
  refine { h with cells := fun id v hid hv => ?_, opened := fun slot id hmem => ?_, cell_le := ?_ }
  · rcases mem_closeFrom hv with hv | ⟨slot, rfl⟩
    · exact h.cells id v hid hv
    · exact h.slot slot
  · exact h.opened slot id ((List.takeWhile_sublist _).subset hmem)
  · show R.cell ≤ (m.cells.closeFrom height m.stack).all.size
    have hsize : ∀ (entries : List (Nat × CellId)) (all : Array Cell), (entries.foldl (fun all entry =>
        all.setIfInBounds entry.2 (.closed (Cells.slotValue m.stack entry.1))) all).size = all.size := by
      intro entries
      induction entries with
      | nil => exact fun _ => rfl
      | cons entry entries ih => exact fun all => (ih _).trans (Array.size_setIfInBounds ..)
    exact h.cell_le.trans_eq (hsize _ _).symm

theorem capture (slot : Nat) : (m.withCells (m.cells.capture slot).2).Inside R ∧ R.cell ≤ (m.cells.capture slot).1 := by
  unfold Cells.capture
  split
  · rename_i id hid
    exact ⟨h, h.opened slot id (Cells.mem_of_cellOf? hid)⟩
  · refine ⟨{ h with cells := fun id v hid hv => ?_, opened := fun slot' id hmem => ?_, cell_le := ?_ },
      h.cell_le⟩
    · change (m.cells.all.push (.opened slot))[id]? = some (.closed v) at hv
      rw [Array.getElem?_push] at hv
      split at hv
      · cases hv
      · exact h.cells id v hid hv
    · rcases Cells.mem_insertSlot.mp hmem with heq | hmem
      · cases heq
        exact h.cell_le
      · exact h.opened slot' id hmem
    · show R.cell ≤ (m.cells.all.push (.opened slot)).size
      rw [Array.size_push]
      exact Nat.le_succ_of_le h.cell_le

theorem read (hid : R.cell ≤ id) : R.Has m.library (m.cells.read id m.stack) := by
  unfold Cells.read
  split
  · exact h.slot _
  · rename_i v hv
    exact h.cells id v hid hv
  · trivial

theorem write (id : CellId) (hv : R.Has m.library v) : Machine.Inside R { m with
      cells := (m.cells.write id v m.stack).1, stack := (m.cells.write id v m.stack).2 } := by
  unfold Cells.write
  split
  · exact h.setSlot _ hv
  · refine { h with cells := fun id' w hid' hw => ?_, cell_le := ?_ }
    · change (m.cells.all.setIfInBounds id (.closed v))[id']? = some (.closed w) at hw
      rw [Array.getElem?_setIfInBounds] at hw
      split at hw
      · split at hw
        · cases hw
          exact hv
        · cases hw
      · exact h.cells id' w hid' hw
    · show R.cell ≤ (m.cells.all.setIfInBounds id (.closed v)).size
      rw [Array.size_setIfInBounds]
      exact h.cell_le
  · exact h

end Machine.Inside

/-! ### Actions -/

namespace Exec.StaysIn

variable (hR : R.Lawful) (h : m.Inside R)

include hR h

/-! ### Calls -/

theorem callClosure (hc : R.HasClosure m.library c) (arguments : Nat) : StaysIn R m (Exec.callClosure c arguments) := by
  apply gives_callClosure h h
  intro _ _
  apply h.withFrames
  intro f hf
  rcases Array.mem_push.mp hf with hf | rfl
  · exact h.frames f hf
  · obtain ⟨shape, hlayout⟩ := hR.layout hc.routine
    obtain ⟨i, hi, _⟩ := hlayout.whole 0 .start hlayout.size_pos
    exact ⟨hc, i, .start, hlayout.size_pos, hi⟩

theorem callProgram (slot : Nat) : StaysIn R m (Exec.callProgram slot) := by
  cases hslot : m.stack[slot]? with
  | none =>
    unfold StaysIn Exec.callProgram
    rw [gives_bind, gives_get, hslot]
    exact h
  | some v =>
    have hv := h.stack v (Array.mem_of_getElem? hslot)
    cases v with
    | program p =>
      apply (gives_callProgram hslot).mpr
      have hc : R.HasClosure m.library ⟨m.nextSerial, p.routine, #[]⟩ :=
        ⟨hv.routine, hv.upvalueCount_eq.symm, nofun, hR.bare _ _⟩
      exact callClosure hR ((h.withSerial (m.nextSerial + 1)).setSlot slot (v := .closure _) hc) hc 0
    | _ =>
      unfold StaysIn Exec.callProgram
      rw [gives_bind, gives_get, hslot]
      exact h

theorem startProgram : StaysIn R m Exec.startProgram := by
  unfold StaysIn Exec.startProgram
  rw [gives_bind, gives_get]
  split
  · exact callProgram hR h _
  · exact h

theorem receive (caller : Option String)
    (hloading : loading.In R m.library) : StaysIn R m (Exec.receive caller loading) := by
  have hloaded := h.afterLoading hR hloading
  exact gives_receive (fun p hresult => Machine.Inside.push (v := .program p) hloaded (hloading.result p hresult))
    (fun _ => hloaded) fun _ _ => hloaded

theorem load (caller : Option String) (path : String) : StaysIn R m (Exec.load caller path) :=
  gives_load (fun _ hbrings => receive hR h caller (hbrings.stays hR h.programs)) fun _ _ => h

theorem receiveSource (caller : Option String) {key : String}
    (hnew : m.library.programs[key]? = none) (source : Except FileError String) :
    StaysIn R m (Exec.receiveSource caller key source) := by
  unfold StaysIn Exec.receiveSource
  rw [gives_bind, gives_get, gives_bind, gives_get]
  exact receive hR h caller ((Library.comes_enroll hnew _).stays hR h.programs)

theorem answer {r : Request} {action : Exec Unit}
    (haction : Session.Answers r action) (hneeded : (Stop.request r).Needed m) : StaysIn R m action := by
  cases haction with
  | source text => exact receiveSource hR h _ hneeded text
  | time n => exact h.push trivial

theorem perform (n : Native) {arguments}
    (harguments : ∀ v ∈ arguments, R.Has m.library v) : StaysIn R m (Exec.perform n arguments) := by
  refine gives_perform (fun v hv => h.push (hv.elim Realm.has_of_isPlain (harguments v))) (fun output => ?_)
    (fun path => load hR h _ path) h fun _ _ => h
  have hprinted : Machine.Inside R { m with output } := h.congr rfl rfl rfl rfl rfl rfl
  exact hprinted.push (v := .nil) trivial

theorem callNative (n : Native) (arguments : Nat) : StaysIn R m (Exec.callNative n arguments) := by
  refine gives_callNative (perform hR (h.shrink _).pop n fun v hv => ?_) fun _ _ => h
  obtain ⟨k, hk, rfl⟩ := Array.mem_extract_iff_getElem.mp hv
  exact h.stack _ (Array.getElem_mem _)

theorem callValue (arguments : Nat) : StaysIn R m (Exec.callValue arguments) := by
  have hcallee := h.slot (m.stack.size - 1 - arguments)
  exact gives_callValue (fun c hc => callClosure hR h (hc ▸ hcallee :) arguments)
    (fun n _ => callNative hR h n arguments) (fun _ _ _ => callProgram hR h _) fun _ _ => h

theorem invoke (name : String) (arguments : Nat) : StaysIn R m (Exec.invoke name arguments) := by
  have hreceiver := h.slot (m.stack.size - 1 - arguments)
  refine gives_invoke (fun o c ho hc => ?_) (fun o v ho hv => ?_) fun _ _ => h
  · rw [ho] at hreceiver
    exact callClosure hR h (h.property? hreceiver hc) arguments
  · rw [ho] at hreceiver
    exact callValue hR (h.setSlot _ (h.property? hreceiver hv)) arguments

theorem invokeParent (name : String) (arguments : Nat) : StaysIn R m (Exec.invokeParent name arguments) := by
  have hparent := h.back
  refine gives_invokeParent (fun o c ho hc => ?_) fun _ _ => h.pop
  rw [ho] at hparent
  exact callClosure hR h.pop (h.pop.method? hparent hc) arguments

omit hR

theorem parentOf (f : Frame) (hv : R.Has m.library v) : StaysIn R m (do Exec.push (.object (← Exec.parentOf f v))) := by
  refine (gives_bind _ _).mpr (gives_parentOf (fun o p ho hp => h.push (h.parent ?_ hp)) fun _ _ => h)
  rw [ho] at hv
  cases hnamed : m.objects.named? o (f.closure.routine.owner.getD f.closure.routine.name) with
  | none => exact hv
  | some defining => exact h.le_of_mem_chain hv (List.mem_of_find?_eq_some hnamed)

/-! ### Variables and functions -/

theorem getGlobal (hglobals : R.globals) (name : String) : StaysIn R m (Exec.getGlobal name) := by
  unfold StaysIn Exec.getGlobal
  rw [gives_bind, gives_get]
  cases hv : m.globals[name]? with
  | some v => exact h.push (h.globals hglobals name v hv)
  | none => exact h

theorem setGlobal (name : String) (hv : R.Has m.library v) : StaysIn R m (Exec.setGlobal name v) := by
  unfold StaysIn Exec.setGlobal
  rw [gives_bind, gives_get, gives_ite]
  exact ⟨fun _ => h.define name hv, fun _ => h⟩

theorem captureCell {c : Capture} (hc : c.fromLocal = false → ∃ id, f.closure.cells[c.index]? = some id ∧ R.cell ≤ id) :
    (Exec.captureCell f c).Gives m (fun id m' => m'.Inside R ∧ m'.library = m.library ∧ R.cell ≤ id)
      fun _ _ => False := by
  unfold Exec.captureCell
  cases hlocal : c.fromLocal with
  | true =>
    have hcaptured := h.capture (f.base + c.index)
    exact ⟨hcaptured.1, rfl, hcaptured.2⟩
  | false =>
    obtain ⟨id, hid, hle⟩ := hc hlocal
    refine ⟨h, rfl, ?_⟩
    rw [hid]
    exact hle

theorem captureCells {captures : List Capture} (hcaptures : ∀ c ∈ captures, c.fromLocal = false →
      ∃ id, f.closure.cells[c.index]? = some id ∧ R.cell ≤ id) :
    (Exec.captureCells f captures #[]).Gives m (fun ids m' => m'.Inside R ∧ m'.library = m.library ∧
      ids.size = captures.length ∧ ∀ id ∈ ids, R.cell ≤ id) E := by
  refine gives_captureCells (P := fun done ids m' => m'.Inside R ∧ m'.library = m.library ∧
    ids.size = done.length ∧ ∀ id ∈ ids, R.cell ≤ id) ⟨h, rfl, rfl, by simp⟩ ?_
  rintro c hc done ids m1 ⟨h1, hlibrary, hsize, hids⟩
  refine (captureCell h1 (hcaptures c hc)).mono (fun id m2 ⟨h2, hlibrary2, hid⟩ => ?_) fun _ _ hstop => hstop
  refine ⟨h2, hlibrary2.trans hlibrary, by simp [hsize], fun id' hid' => ?_⟩
  rcases Array.mem_push.mp hid' with hid' | rfl
  · exact hids id' hid'
  · exact hid

include hR in
theorem makeClosure (hf : R.HasClosure m.library f.closure) {index : Nat} {captures} {shape : Shape}
    (hallowed : (Instruction.closure index captures).OperandsAllowed f.closure.routine shape)
    (hnew : MakesKnown R m f (.closure index captures)) : StaysIn R m (Exec.makeClosure f index captures) := by
  obtain ⟨q, hq, hlength, hcaptures⟩ := hallowed
  have hroutine : f.code.routineAt? index = some q := by
    rw [Code.routineAt?, show f.code.constants[index]? = _ from hq]
  refine gives_makeClosure (fun _ => h) fun q' hq' => ?_
  cases hroutine.symm.trans hq'
  refine ((captureCells h fun c hc hlocal => ?_).and Gives.self).mono ?_ fun _ _ hstop => hstop.1
  · obtain ⟨j, hj⟩ := List.getElem?_of_mem hc
    have hindex := hcaptures j c hj
    rw [Capture.Allowed, if_neg (by simp [hlocal]), ← hf.size_eq] at hindex
    exact ⟨_, Array.getElem?_eq_getElem hindex, hf.cells _ (Array.getElem_mem _)⟩
  · rintro ids m1 ⟨⟨h1, hlibrary, hsize, hids⟩, hcaptured⟩
    have hc : R.HasClosure m.library ⟨m1.nextSerial, q, ids⟩ :=
      ⟨hR.nested hf.routine hq, hsize.trans hlength, hids, hnew hroutine hcaptured _⟩
    exact (h1.withSerial _).push (v := .closure _) (hlibrary ▸ hc)

/-! ### Objects -/

theorem construct (f : Frame) (name : String) : StaysIn R m (Exec.construct f name) :=
  ((h.pushObject name).setSlot f.base (v := .object m.objects.size) h.object_le).congr rfl rfl rfl rfl rfl rfl

theorem inherit (hv : R.Has m.library v) : StaysIn R m (Exec.inherit v) := by
  refine gives_inherit (fun o p events hp _ _ => ?_) fun _ _ _ => h.congr rfl rfl rfl rfl rfl rfl
  rw [hp] at hv
  exact (h.link o hv).congr rfl rfl rfl rfl rfl rfl

theorem defineField (name : String) (hv : R.Has m.library v) : StaysIn R m (Exec.defineField name v) :=
  gives_defineField (fun o _ => h.putField o name hv) fun _ _ => h

theorem defineMethod (name : String) (hv : R.Has m.library v) : StaysIn R m (Exec.defineMethod name v) := by
  refine gives_defineMethod (fun o c hc _ => ?_) fun _ _ => h
  rw [hc] at hv
  exact h.putMethod o name hv

end Exec.StaysIn

/-! ### Instructions -/

theorem Machine.Inside.leave (h : m.Inside R) (position base : Nat) : ((m.goTo position).leave base).Inside R := by
  have hclosed : Machine.Inside R (((m.withStack m.stack.pop).withCells
      (m.cells.closeFrom base m.stack.pop)).withStack (m.stack.pop.shrink base) |>.withFrames m.frames.pop) :=
    ((h.pop.closeFrom base).shrink base).withFrames fun g hg => h.frames g (mem_of_mem_pop hg)
  refine hclosed.congr rfl rfl rfl rfl ?_ rfl
  show (m.frames.modify (m.frames.size - 1) _).pop = m.frames.pop
  apply Array.ext_getElem?
  intro k
  rw [Array.getElem?_pop, Array.getElem?_pop, Array.size_modify, Array.getElem?_modify]
  split
  · rw [if_neg (by omega)]
  · rfl

theorem Exec.StaysIn.execute (hR : R.Lawful) (h : m.Inside R) (hback : m.frames.back? = some f)
    (hat : f.code.At f.position i) (hnew : MakesKnown R (m.goTo (f.position + i.size)) f i) :
    StaysIn R (m.goTo (f.position + i.size)) (Exec.execute f (f.position + i.size) i) := by
  have hf := (h.frames f (Array.mem_of_back? hback)).1
  obtain ⟨shape, hlayout⟩ := hR.layout hf.routine
  have hoperands := (hlayout.allowed f.position i hat).operands
  have hglobal := hR.silent hf.routine hat
  have hgoes : ∀ target, i.Continues (f.position + i.size) target → (m.goTo target).Inside R :=
    fun target htarget => h.goTo hback (hlayout.continues hat htarget).1
  have hcell : ∀ index, index < f.closure.routine.upvalueCount →
      R.cell ≤ f.closure.cells[index]?.getD 0 := by
    intro index hlt
    rw [← hf.size_eq] at hlt
    rw [Array.getElem?_eq_getElem hlt]
    exact hf.cells _ (Array.getElem_mem _)
  cases i with
  | jump distance | loop distance =>
    show Machine.Inside R ((m.goTo _).goTo _)
    rw [goTo_goTo]
    exact hgoes _ (.inr rfl)
  | jumpIfFalse distance =>
    unfold StaysIn Exec.execute
    rw [gives_bind, gives_peek, gives_ite]
    refine ⟨fun _ => hgoes _ (.inl rfl), fun _ => ?_⟩
    show Machine.Inside R ((m.goTo _).goTo _)
    rw [goTo_goTo]
    exact hgoes _ (.inr rfl)
  | ret =>
    have hleft := h.leave (f.position + Instruction.ret.size) f.base
    exact gives_leave f (fun _ => hleft) fun _ => hleft.push h.back
  | constant index =>
    have hinside := hgoes _ (.inl rfl)
    obtain ⟨c, hc, hliteral⟩ := hoperands
    show StaysIn R _ (pushConstant (f.code.constants[index]?.getD (.text "")))
    rw [show f.code.constants[index]? = some c from hc]
    rcases hliteral with ⟨n, rfl⟩ | ⟨s, rfl⟩
    · exact hinside.push (v := .number n) trivial
    · exact hinside.push (v := .text s) trivial
  | pushNil => exact (hgoes _ (.inl rfl)).push (v := .nil) trivial
  | pushTrue | pushFalse => exact (hgoes _ (.inl rfl)).push (v := .bool _) trivial
  | pop => exact (hgoes _ (.inl rfl)).pop
  | dup => exact (hgoes _ (.inl rfl)).push ((hgoes _ (.inl rfl)).slot _)
  | getLocal slot => exact (hgoes _ (.inl rfl)).push ((hgoes _ (.inl rfl)).slot _)
  | setLocal slot => exact (hgoes _ (.inl rfl)).setSlot _ ((hgoes _ (.inl rfl)).slot _)
  | getGlobal name => exact .getGlobal (hgoes _ (.inl rfl)) (hglobal rfl) _
  | defineGlobal name => exact (hgoes _ (.inl rfl)).pop.define _ (hgoes _ (.inl rfl)).back
  | setGlobal name => exact .setGlobal (hgoes _ (.inl rfl)) _ ((hgoes _ (.inl rfl)).slot _)
  | getUpvalue index => exact (hgoes _ (.inl rfl)).push ((hgoes _ (.inl rfl)).read (hcell index hoperands))
  | setUpvalue index => exact (hgoes _ (.inl rfl)).write _ ((hgoes _ (.inl rfl)).slot _)
  | closeUpvalue => exact ((hgoes _ (.inl rfl)).closeFrom _).pop
  | getProperty name =>
    have hinside := hgoes _ (.inl rfl)
    have hreceiver := hinside.back
    refine (gives_bind _ _).mpr ((gives_bind _ _).mpr (gives_getProperty (fun o v ho hv => ?_) fun _ _ => hinside.pop))
    rw [ho] at hreceiver
    exact hinside.pop.push (hinside.pop.property? hreceiver hv)
  | setProperty name =>
    have hinside := hgoes _ (.inl rfl)
    refine (gives_bind _ _).mpr ((gives_bind _ _).mpr ((gives_bind _ _).mpr ?_))
    refine gives_setProperty (fun _ holder _ _ => ?_) fun _ _ => hinside.pop.pop
    exact (hinside.pop.pop.putField holder _ hinside.back).push hinside.back
  | equal | notEqual | greater | greaterEqual | less | lessEqual | add | subtract | multiply | divide | modulo | not
  | negate =>
    have htaken := fun n => (hgoes _ (.inl rfl)).shrink n
    exact gives_operator rfl (fun _ hv => (htaken _).push (Realm.has_of_isPlain hv)) fun _ _ => htaken _
  | call arguments => exact .callValue hR (hgoes _ (.inl rfl)) arguments
  | invoke name arguments => exact .invoke hR (hgoes _ (.inl rfl)) _ arguments
  | superInvoke name arguments => exact .invokeParent hR (hgoes _ (.inl rfl)) _ arguments
  | closure index captures => exact .makeClosure hR (hgoes _ (.inl rfl)) hf hoperands hnew
  | object name => exact .construct (hgoes _ (.inl rfl)) f _
  | compile =>
    have hinside := (hgoes _ (.inl rfl)).pop
    refine (gives_bind _ _).mpr ?_
    rw [gives_pop]
    split
    · exact StaysIn.load hR hinside none _
    · exact hinside
  | inherit => exact (gives_bind _ _).mpr (StaysIn.inherit (hgoes _ (.inl rfl)).pop (hgoes _ (.inl rfl)).back)
  | field name => exact (gives_bind _ _).mpr (StaysIn.defineField (hgoes _ (.inl rfl)).pop _ (hgoes _ (.inl rfl)).back)
  | method name =>
    exact (gives_bind _ _).mpr (StaysIn.defineMethod (hgoes _ (.inl rfl)).pop _ (hgoes _ (.inl rfl)).back)
  | super => exact (gives_bind _ _).mpr (StaysIn.parentOf (hgoes _ (.inl rfl)).pop f (hgoes _ (.inl rfl)).back)

/-! ### Steps -/

theorem Machine.Inside.noted (h : m.Inside R) (events : Array Event) : Machine.Inside R { m with events } :=
  h.congr rfl rfl rfl rfl rfl rfl

theorem Machine.Inside.gives_step (hR : R.Lawful) (h : m.Inside R) {Q : Unit → Machine → Prop}
    (hstart : startProgram.Gives m (fun _ m1 => m1.Inside R → (m1.frames.back? = none → E (.finished .nil) m1) ∧
      ∀ f i, m1.frames.back? = some f → f.code.At f.position i → ∀ events,
        (Exec.execute f (f.position + i.size) i).Gives
          (({ m1 with events } : Machine).goTo (f.position + i.size)) Q E) E) : step.Gives m Q E := by
  cases hresult : startProgram m with
  | error stop m1 =>
    unfold step
    rw [gives_bind, Gives, hresult]
    exact hstart.error hresult
  | ok _ m1 =>
    have hinside := (StaysIn.startProgram hR h).ok hresult
    have hgoes := hstart.ok hresult hinside
    cases hback : m1.frames.back? with
    | none =>
      unfold step
      rw [gives_bind, Gives, hresult]
      dsimp only
      rw [gives_bind, gives_get, hback]
      exact hgoes.1 hback
    | some f =>
      apply Mudscript.gives_step
      rw [Gives, hresult]
      obtain ⟨i, hat⟩ := (hinside.frames f (Array.mem_of_back? hback)).2
      exact ⟨f, i, hback, hat, hgoes.2 f i hback hat⟩

theorem Exec.MakesKnown.of_forall (hknown : ∀ c, R.closure c) : MakesKnown R m f i := by
  cases i with
  | closure index captures => exact fun _ _ _ => hknown _
  | _ => trivial

theorem Exec.StaysIn.step (hR : R.Lawful) (h : m.Inside R) (hknown : ∀ c, R.closure c) : StaysIn R m Exec.step := by
  apply h.gives_step hR
  apply (StaysIn.startProgram hR h).mono
  · intro _ m1 h1 _
    exact ⟨fun _ => h1, fun f i hback hat events => StaysIn.execute hR (h1.noted events) hback hat (.of_forall hknown)⟩
  · exact fun _ _ hstop => hstop

theorem Exec.StaysIn.construction (hR : R.Lawful) (h : m.Inside R)
    (hp : R.HasProgram m.library p) : StaysIn R m (Exec.construction p) := by
  unfold StaysIn Exec.construction
  rw [gives_bind, gives_push, gives_bind, gives_get]
  exact callProgram hR (h.push (v := .program p) hp) _

end Mudscript
