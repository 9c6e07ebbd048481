import Mudscript.Proofs.Actions

/-!
# Execution in good order

What each instruction does to a machine that is ready for it, and from this what a step does. Most
instructions go on to the next one and then act; the ones that are more than that are functions being
made, calls being left, and the construction of objects.
-/

namespace Mudscript

open Machine Exec

variable {q : Routine} {Q : Unit → Machine → Prop}

variable {index : Nat} {E : Stop → Machine → Prop} {v : Value}

variable {past : Moment} {L : Layouts} {a : Activity} {m m' : Machine} {f : Frame} {rest : List Frame}
  {i : Instruction}

/-- An instruction that always goes on to the next one, and needs nothing to be done before. -/
def Instruction.goesOn : Instruction → Bool
  | .ret | .closeUpvalue | .object _ | .jump _ | .loop _ => false
  | _ => true

theorem Instruction.near?_of_goesOn (h : i.goesOn) (next : Nat) : i.near? next = some next := by
  cases i with
  | ret | jump _ | loop _ => cases h
  | _ => rfl

namespace Machine

theorem Sound.goTo (h : m.Sound past) (position : Nat) : (m.goTo position).Sound past := by
  refine h.withFrames fun f hf => .inl ?_
  obtain ⟨k, hk⟩ := Array.mem_iff_getElem?.mp hf
  rw [Array.getElem?_modify] at hk
  split at hk
  · obtain ⟨g, hg, rfl⟩ := Option.map_eq_some_iff.mp hk
    exact ⟨g, Array.mem_of_getElem? hg, rfl, rfl⟩
  · exact ⟨f, Array.mem_of_getElem? hk, rfl, rfl⟩

theorem Ready.closure_valid (h : m.Ready past L a) (hcalls : m.calls = f :: rest) : f.closure.Valid m.moment := by
  have hmem : f ∈ m.frames := mem_calls.mp (hcalls ▸ List.mem_cons_self)
  exact h.sound.frames f hmem

theorem Arranged.back (h : m.Arranged past L a) (hcalls : m.calls = f :: rest) {t : ValueType}
    (htop : (L.shapeOf f).top = some t) : ∃ v, m.stack.back? = some v ∧ v.type = t := by
  obtain ⟨type, hmidway, htype⟩ := h
  rcases hmidway.top f rest hcalls with hnone | heq
  · rw [hnone] at htop
    cases htop
  · exact htype t (heq.symm.trans htop)

theorem Ready.goTo (h : m.Ready past L a) (hcalls : m.calls = f :: rest) (hat : f.code.At f.position i)
    (hi : i.goesOn) : (m.goTo (f.position + i.size)).Busy past L a i.taken i.given (i.result? f.code.constants) := by
  refine ⟨h.sound.goTo _, h.arranged.goTo hcalls hat ?_ ?_ ?_ (.inl (Instruction.near?_of_goesOn hi _))
    (calls_goTo hcalls _) rfl rfl⟩
  · rintro rfl
    cases hi
  · rintro rfl
    cases hi
  · rintro name rfl
    cases hi

theorem Ready.jump (h : m.Ready past L a) (hcalls : m.calls = f :: rest) (hat : f.code.At f.position i)
    {target : Nat} (hfar : i.far? (f.position + i.size) = some target) :
    ((m.goTo (f.position + i.size)).goTo target).Busy past L a i.taken i.given
      (i.result? f.code.constants) := by
  refine ⟨(h.sound.goTo _).goTo _, h.arranged.goTo hcalls hat ?_ ?_ ?_ (.inr hfar)
    (calls_goTo (calls_goTo hcalls _) _) rfl rfl⟩
  · rintro rfl
    cases hfar
  · rintro rfl
    cases hfar
  · rintro name rfl
    cases hfar

end Machine

/-! ### Functions -/

theorem Routine.Within.trans {r p : Routine} (h : r.Within q) (h' : q.Within p) : r.Within p := by
  induction h with
  | self => exact h'
  | inside hget _ ih => exact .inside hget (ih h')

/-- A new function can be relied on: its routine is written in the one at work, and it assigns to no
variable that is not to be assigned to. -/
theorem Gathers.valid {captures : List Capture} {ids : List CellId}
    (h : m.Ready past L a) (hcalls : m.calls = f :: rest) (hat : f.code.At f.position (.closure index captures))
    (hq : f.code.constants[index]? = some (.routine q)) (hlength : captures.length = q.upvalueCount)
    (hallowed : ∀ j (c : Capture), captures[j]? = some c → c.Allowed f.closure.routine q (L.shapeOf f) j)
    {position : Nat} (hg : Gathers past f (m.goTo position) captures ids m') (serial : Nat) :
    Closure.Valid m'.moment ⟨serial, q, ids.toArray⟩ := by
  have hcalls' := calls_goTo hcalls position
  have hmem : { f with position } ∈ (m.goTo position).frames := mem_calls.mp (hcalls' ▸ List.mem_cons_self)
  have hvalid := (h.sound.goTo position).frames _ hmem
  have hclosure : f.closure.Valid m'.moment := Closure.Valid.mono hvalid hg.upholds
  -- What is known of the cell of each capture.
  have hfound : ∀ j id, ids[j]? = some id → ∃ c : Capture, captures[j]? = some c ∧
      c.Allowed f.closure.routine q (L.shapeOf f) j ∧
      if c.fromLocal then (f.base + c.index, id) ∈ m'.cells.opened
      else f.closure.cells[c.index]? = some id := by
    intro j id hid
    obtain ⟨hlt, hget⟩ := List.getElem?_eq_some_iff.mp hid
    have hlt' : j < captures.length := hg.found.length_eq ▸ hlt
    have hfinds := hg.found.get hlt' hlt
    refine ⟨captures[j], List.getElem?_eq_getElem hlt', hallowed j _ (List.getElem?_eq_getElem hlt'), ?_⟩
    have hc := hallowed j _ (List.getElem?_eq_getElem hlt')
    rw [List.get_eq_getElem, List.get_eq_getElem, hget] at hfinds
    unfold Capture.Finds at hfinds
    unfold Capture.Allowed at hc
    by_cases hlocal : captures[j].fromLocal = true
    · rw [if_pos hlocal] at hfinds ⊢
      exact hfinds
    · rw [if_neg hlocal] at hfinds hc ⊢
      have hsize : captures[j].index < f.closure.cells.size := hclosure.size_eq ▸ hc
      rw [hfinds, Array.getElem?_eq_getElem hsize]
      rfl
  refine ⟨?_, ?_, ?_, ?_⟩
  · obtain ⟨unit, hunit, hwithin⟩ := hclosure.compiled
    exact ⟨unit, hunit, hwithin.trans (.inside hq .self)⟩
  · show ids.toArray.size = q.upvalueCount
    rw [List.size_toArray, ← hlength, hg.found.length_eq]
  · intro id hid
    obtain ⟨j, hj⟩ := List.getElem?_of_mem (List.mem_toArray.mp hid)
    obtain ⟨c, _, _, hc⟩ := hfound j id hj
    split at hc
    · exact hg.sound.cells.lt_size hc
    · exact hclosure.lt_size id (Array.mem_of_getElem? hc)
  · rintro j id slot hassigns hj hopened ⟨g, hgmem, hobject, rfl⟩
    obtain ⟨c, hget, hc, hid⟩ := hfound j id (by simpa using hj)
    unfold Capture.Allowed at hc
    split at hid
    · rename_i hlocal
      rw [if_pos hlocal] at hc
      have hslot : g.base = f.base + c.index := hg.sound.cells.slot_unique hopened hid
      obtain ⟨cells, rfl⟩ := hg.same
      have hgcalls : g ∈ (m.goTo position).calls := mem_calls.mpr hgmem
      rw [hcalls'] at hgcalls
      rcases List.mem_cons.mp hgcalls with rfl | hgrest
      · exact hc.2.2 hobject hassigns
      · have hlt := h.arranged.base_lt hcalls hgrest
        omega
    · rename_i hlocal
      have hroutine : f.code.routineAt? index = some q := by rw [Code.routineAt?, hq]
      have hcapture : captures[j]? = some ⟨false, c.index⟩ := by
        rw [hget, show c = ⟨false, c.index⟩ from by cases c; simp_all]
      exact hclosure.spares c.index id g.base (.inside hat hroutine hcapture hassigns) hid hopened
        ⟨g, hgmem, hobject, rfl⟩

private theorem Value.eq_object_of_type (h : v.type = .object) : ∃ o, v = .object o := by
  cases v with
  | object o => exact ⟨o, rfl⟩
  | _ => cases h

private theorem Value.eq_closure_of_type (h : v.type = .function) : ∃ c, v = .closure c := by
  cases v with
  | closure c => exact ⟨c, rfl⟩
  | _ => cases h

private theorem Value.eq_text_of_type (h : v.type = .string) : ∃ s, v = .text s := by
  cases v with
  | text s => exact ⟨s, rfl⟩
  | _ => cases h

abbrev Exec.SettlesAt (past : Moment) (L : Layouts) (a : Activity) (m : Machine) (f : Frame) (i : Instruction) : Prop :=
  (execute f (f.position + i.size) i).Settles past L a (m.goTo (f.position + i.size))

def Instruction.reachesOut : Instruction → Bool
  | .call _ | .invoke _ _ | .superInvoke _ _ | .compile => true
  | _ => false

section

variable (h : m.Ready past L a) (hcalls : m.calls = f :: rest)

include h hcalls

private theorem settles_makeClosure {captures} (hat : f.code.At f.position (.closure index captures)) :
    SettlesAt past L a m f (.closure index captures) := by
  obtain ⟨q, hq, hlength, hallowed⟩ := (h.arranged.allowed hcalls hat).operands
  have hroutine : f.code.routineAt? index = some q := by
    rw [Code.routineAt?, show f.code.constants[index]? = _ from hq]
  have hbusy := h.goTo hcalls hat rfl
  have hsize := h.arranged.size_eq hcalls
  have hproper := h.arranged.proper hcalls hat
  have hcalls' := calls_goTo hcalls (f.position + (Instruction.closure index captures).size)
  obtain ⟨_, hflows⟩ := (h.arranged.layout hcalls).continues hat (.inl rfl)
  refine gives_makeClosure (fun hnone => by cases hroutine.symm.trans hnone) fun q' hq' => ?_
  cases hroutine.symm.trans hq'
  refine (gives_captureCells_gathers hbusy.sound f captures).mono (fun ids m1 hg => ?_) fun _ _ hstop => hstop
  have hvalid := hg.valid h hcalls hat hq hlength hallowed m1.nextSerial
  obtain ⟨cells, rfl⟩ := hg.same
  refine ⟨?_, some .function, ?_, fun t ht => ⟨_, Array.back?_push, by cases ht; rfl⟩⟩
  · exact (hg.sound.withSerial _).push (v := .closure _) hvalid
  · -- The slots that are newly captured are those of locals, or the one the function is put in.
    refine ((hbusy.midway.push (.closure ⟨m.nextSerial, q, ids⟩)).withCells fun slot id hmem => ?_).congr
      rfl rfl rfl
    by_cases hid : id < m.cells.all.size
    · exact .inl (hg.upholds.ages.opened slot id hid hmem)
    have hnew : past.cells.all.size ≤ id := Nat.le_trans h.sound.since.size_le (Nat.le_of_not_lt hid)
    refine (hg.added slot id hmem).imp_right ?_
    rintro ⟨c, hc, hlocal, rfl⟩
    obtain ⟨j, hj⟩ := List.getElem?_of_mem hc
    have hcapture := hallowed j c hj
    rw [Capture.Allowed, if_pos hlocal] at hcapture
    have hle : c.index ≤ (L.shapeOf f).height := by
      have := hproper.locals_le
      rcases hcapture.1 with hlt | ⟨heq, _⟩ <;> omega
    have hmem' : ⟨true, c.index⟩ ∈ captures := by
      rw [show (⟨true, c.index⟩ : Capture) = c from by rw [← hlocal]]
      exact hc
    constructor
    · show f.base + c.index + 0 < (m.stack.push _).size
      rw [Array.size_push]
      omega
    · show Owned past L (m.goTo _).calls _ _
      rw [hcalls', owned_of_le (Nat.le_add_right _ _), Nat.add_sub_cancel_left]
      exact ⟨hflows.captured_subset (.inr hmem'), fun hlt => absurd hlt (Nat.not_lt.mpr hnew)⟩

/-! ### Leaving a call -/

private theorem settles_leave (hat : f.code.At f.position .ret) : SettlesAt past L a m f .ret := by
  obtain ⟨position, hposition⟩ : ∃ position, position = f.position + Instruction.ret.size := ⟨_, rfl⟩
  show (leave f).Settles past L a (m.goTo (f.position + Instruction.ret.size))
  rw [← hposition]
  have hsize := h.arranged.size_eq hcalls
  have hproper := h.arranged.proper hcalls hat
  have hpos : 0 < (L.shapeOf f).height := Nat.lt_of_lt_of_le hproper.locals_pos hproper.locals_le
  -- An object unit returns the object it has constructed.
  have hobject : f.IsObject → ∃ o, m.stack.back?.getD .nil = .object o := by
    intro hobject
    obtain ⟨o, ho⟩ := h.arranged.built hcalls hat hobject (by rintro _ ⟨⟩)
    have hone : (L.shapeOf f).height = 1 := (if_pos hobject).mp (h.arranged.allowed hcalls hat).values
    refine ⟨o, ?_⟩
    rw [Array.back?_eq_getElem?, show m.stack.size - 1 = f.base by omega, ho]
    rfl
  obtain ⟨hsound, hupholds⟩ := (h.sound.goTo position).leave f.base
  have hvalid : ((m.goTo position).stack.back?.getD .nil).Valid ((m.goTo position).leave f.base).moment := by
    rw [Array.back?_eq_getElem?]
    exact (Value.valid_getD fun _ hv => (h.sound.goTo position).valid_of_getElem? hv).mono hupholds
  have hcalls' : ((m.goTo position).leave f.base).calls = rest := calls_pop (calls_goTo hcalls position)
  have hsize' : ((m.goTo position).leave f.base).stack.size = f.base := by
    show (m.stack.pop.shrink f.base).size = f.base
    rw [Array.size_shrink, Array.size_pop]
    omega
  have hopened : ∀ slot id, (slot, id) ∈ ((m.goTo position).leave f.base).cells.opened →
      (slot, id) ∈ m.cells.opened ∧ slot < f.base :=
    fun slot id => ((h.sound.cells.closeFrom f.base m.stack.pop).mem_iff slot id).mp
  refine gives_leave f (fun hlast => ?_) fun hnext => ?_
  · have hnone : rest = [] := by
      rw [← hcalls', calls, hlast]
      rfl
    subst hnone
    obtain ⟨_, hmidway, _⟩ := h.arranged
    have hstacked := hmidway.stacked
    rw [hcalls] at hstacked
    cases hstacked with
    | outermost _ hbase hconstruction =>
      refine ⟨⟨hsound, hlast, Array.size_eq_zero_iff.mp (hsize'.trans hbase), ?_⟩,
        fun ha => hobject (hconstruction ha)⟩
      refine List.eq_nil_iff_forall_not_mem.mpr ?_
      rintro ⟨slot, id⟩ hmem
      have hlt := (hopened slot id hmem).2
      omega
  · cases rest with
    | nil => exact absurd (by simpa [calls] using hcalls') hnext
    | cons g rest =>
      have hslots : ∀ slot < f.base, ((m.goTo position).leave f.base).stack[slot]? = m.stack[slot]? := by
        intro slot hslot
        show (m.stack.pop.shrink f.base)[slot]? = _
        rw [getElem?_shrink hslot, Array.getElem?_pop, if_pos (by omega)]
      obtain ⟨type, hmidway, htype⟩ := h.arranged.left hcalls hcalls' hsize' hslots hopened
      refine Busy.done ⟨hsound, hmidway⟩ hvalid fun t ht => ?_
      obtain ⟨rfl, hf⟩ := htype t ht
      obtain ⟨o, ho⟩ := hobject hf
      show (m.stack.back?.getD .nil).type = .object
      rw [ho]
      rfl

/-! ### Locals -/

private theorem settles_closeUpvalue (hat : f.code.At f.position .closeUpvalue) :
    SettlesAt past L a m f .closeUpvalue := by
  have hc := h.sound.cells.closeFrom (m.stack.size - 1) m.stack
  have hmidway : Machine.Midway past L a ((m.goTo (f.position + Instruction.closeUpvalue.size)).withCells
      (m.cells.closeFrom (m.stack.size - 1) m.stack)) 1 0 none := by
    refine h.arranged.moved hcalls hat nofun (.inl rfl) (calls_goTo hcalls _) rfl (fun slot id hmem => ?_)
      fun g hg hobject hposition => ?_
    · obtain ⟨hold, hlt⟩ := (hc.mem_iff slot id).mp hmem
      exact ⟨hold, fun _ => by omega⟩
    · exact h.arranged.built_moved hcalls hat (fun _ => nofun) _ (calls_goTo hcalls _ ▸ hg) hobject hposition
  have hbusy : Machine.Busy past L a _ 1 0 none := ⟨(h.sound.goTo _).closeFrom (m.stack.size - 1), hmidway⟩
  exact hbusy.pop.ready

private theorem settles_setLocal {slot : Nat} (hat : f.code.At f.position (.setLocal slot)) :
    SettlesAt past L a m f (.setLocal slot) := by
  have hbusy := h.goTo hcalls hat rfl
  have hkind := (h.arranged.allowed hcalls hat).operands.2
  have hcalls' := calls_goTo hcalls (f.position + (Instruction.setLocal slot).size)
  refine Busy.ready ⟨hbusy.sound.setSlot _ (hbusy.top_valid _), hbusy.keep.midway.setSlot _ ?_⟩
  intro g hg hobject
  rw [hcalls'] at hg
  rcases List.mem_cons.mp hg with rfl | hg
  · exact absurd hobject hkind
  · have hlt := h.arranged.base_lt hcalls hg
    omega

private theorem settles_setUpvalue (hat : f.code.At f.position (.setUpvalue index)) :
    SettlesAt past L a m f (.setUpvalue index) := by
  have hbusy := h.goTo hcalls hat rfl
  have hcalls' := calls_goTo hcalls (f.position + (Instruction.setUpvalue index).size)
  have hvalid := hbusy.sound.frames _ (mem_calls.mp (hcalls' ▸ List.mem_cons_self))
  have hindex : index < f.closure.cells.size := by
    rw [Closure.Valid.size_eq hvalid]
    exact (h.arranged.allowed hcalls hat).operands
  have hid : f.closure.cells[index]? = some (f.closure.cells[index]?.getD 0) := by
    rw [Array.getElem?_eq_getElem hindex]
    rfl
  refine settles_writeCell hbusy.keep (hbusy.top_valid _) fun slot hmem => ?_
  exact Closure.Valid.spares hvalid index _ slot (.here hat) hid hmem

/-! ### Objects -/

private theorem settles_construct (hat : f.code.At f.position (.object index)) :
    SettlesAt past L a m f (.object index) := by
  have hsize := h.arranged.size_eq hcalls
  have hproper := h.arranged.proper hcalls hat
  have hpos : 0 < (L.shapeOf f).height := Nat.lt_of_lt_of_le hproper.locals_pos hproper.locals_le
  have hsound := h.sound.goTo (f.position + (Instruction.object index).size)
  obtain ⟨m1, hm1⟩ : ∃ m1, m1 = m.goTo (f.position + (Instruction.object index).size) := ⟨_, rfl⟩
  rw [← hm1] at hsound
  have hcalls' : m1.calls = { f with position := f.position + (Instruction.object index).size } :: rest :=
    hm1 ▸ calls_goTo hcalls _
  have hstack : m1.stack = m.stack := hm1 ▸ rfl
  have hcells : m1.cells = m.cells := hm1 ▸ rfl
  show (construct f (f.code.nameAt index)).Settles past L a (m.goTo (f.position + (Instruction.object index).size))
  rw [← hm1]
  generalize f.code.nameAt index = name
  show Machine.Ready past L a { m1.note _ with
    objects := m1.objects.push { name }
    stack := m1.stack.setIfInBounds f.base (.object m1.objects.size) }
  refine ⟨?_, ?_⟩
  · have hobjects : (m1.withObjects (m1.objects.push { name })).Sound past := by
      refine hsound.withObjects fun o ho => ?_
      rcases Array.mem_push.mp ho with ho | rfl
      · exact hsound.objects _ ho
      · exact ⟨nofun, nofun⟩
    exact (hobjects.setSlot f.base (v := .object m1.objects.size) trivial).congr rfl rfl rfl rfl rfl
      hsound.library
  · refine Midway.arranged (h.arranged.moved hcalls hat nofun (.inl rfl) hcalls' ?_ (fun slot id hmem => ?_)
      fun g hg hobject hposition => ?_)
    · show (m1.stack.setIfInBounds f.base _).size = _
      rw [Array.size_setIfInBounds, hstack]
    · refine ⟨?_, nofun⟩
      rw [← hcells]
      exact hmem
    · change g ∈ m1.calls at hg
      show ∃ o, (m1.stack.setIfInBounds f.base _)[g.base]? = some (.object o)
      rw [hcalls'] at hg
      rw [hstack]
      rcases List.mem_cons.mp hg with rfl | hg
      · exact ⟨_, Array.getElem?_setIfInBounds_self_of_lt (by omega)⟩
      · have hlt := h.arranged.base_lt hcalls hg
        obtain ⟨_, hmidway, _⟩ := h.arranged
        rw [Array.getElem?_setIfInBounds_ne (by omega)]
        exact hmidway.built g (hcalls ▸ List.mem_cons_of_mem _ hg) hobject hposition

/-- With one more value on the stack than the object under construction, and that taken off, the object is
on top. -/
theorem Machine.Ready.constructing (hat : f.code.At f.position i) (hobject : f.IsObject)
    (hi : ∀ name, i ≠ .object name) (hheight : (L.shapeOf f).height = 2) :
    ∃ o, m.stack.pop[m.stack.pop.size - 1]?.getD .nil = .object o := by
  obtain ⟨o, ho⟩ := h.arranged.built hcalls hat hobject hi
  have hsize := h.arranged.size_eq hcalls
  refine ⟨o, ?_⟩
  rw [Array.getElem?_pop, Array.size_pop, if_pos (by omega), show m.stack.size - 1 - 1 = f.base by omega, ho]
  rfl

private theorem settles_inherit (hat : f.code.At f.position .inherit) : SettlesAt past L a m f .inherit := by
  obtain ⟨hobject, _, hheight, htop⟩ := (h.arranged.allowed hcalls hat).values
  have hbusy := (h.goTo hcalls hat rfl).pop
  obtain ⟨v, hback, htype⟩ := h.arranged.back hcalls htop
  obtain ⟨p, rfl⟩ := Value.eq_object_of_type htype
  obtain ⟨o, ho⟩ := h.constructing hcalls hat hobject (fun _ => nofun) hheight
  unfold SettlesAt Exec.Settles execute
  rw [gives_bind, gives_pop, show (m.goTo _).stack.back? = _ from hback]
  refine gives_inherit (fun o' p' events hp' _ _ => ?_) fun _ _ hf => ⟨fun hinternal => hf hinternal o p rfl ho, ?_⟩
  · have hlinked := hbusy.sound.modifyObject (f := fun object => { object with parent := some p' }) o'
      fun object ho => ⟨ho.fields, ho.methods⟩
    exact Busy.ready ⟨hlinked.congr rfl rfl rfl rfl rfl hlinked.library, hbusy.midway.congr rfl rfl rfl⟩
  · exact hbusy.sound.congr rfl rfl rfl rfl rfl hbusy.sound.library

private theorem settles_defineField (hat : f.code.At f.position (.field index)) :
    SettlesAt past L a m f (.field index) := by
  obtain ⟨hobject, _, hheight⟩ := (h.arranged.allowed hcalls hat).values
  have hbusy := h.goTo hcalls hat rfl
  have hvalid := hbusy.back_valid
  have hpopped := hbusy.pop
  obtain ⟨o, ho⟩ := h.constructing hcalls hat hobject (fun _ => nofun) hheight
  unfold SettlesAt Exec.Settles execute
  rw [gives_bind, gives_pop]
  refine gives_defineField (fun o _ => ?_) fun _ hne => absurd ho (hne o)
  exact Busy.ready ⟨hpopped.sound.modifyObject o fun object ho => ho.putField hvalid, hpopped.midway.congr rfl rfl rfl⟩

private theorem settles_defineMethod (hat : f.code.At f.position (.method index)) :
    SettlesAt past L a m f (.method index) := by
  obtain ⟨hobject, _, hheight, htop⟩ := (h.arranged.allowed hcalls hat).values
  have hbusy := h.goTo hcalls hat rfl
  obtain ⟨v, hback, htype⟩ := h.arranged.back hcalls htop
  obtain ⟨c, rfl⟩ := Value.eq_closure_of_type htype
  have hvalid := hbusy.back_valid
  have hpopped := hbusy.pop
  obtain ⟨o, ho⟩ := h.constructing hcalls hat hobject (fun _ => nofun) hheight
  rw [show (m.goTo _).stack.back? = _ from hback] at hvalid
  unfold SettlesAt Exec.Settles execute
  rw [gives_bind, gives_pop, show (m.goTo _).stack.back? = _ from hback]
  refine gives_defineMethod (fun o c hc _ => ?_) fun _ hne => absurd ho (hne o c rfl)
  cases hc
  exact Busy.ready ⟨hpopped.sound.modifyObject o fun object ho => ho.putMethod hvalid, hpopped.midway.congr rfl rfl rfl⟩

private theorem safe_compile (hat : f.code.At f.position .compile) :
    (execute f (f.position + Instruction.compile.size) .compile).Safe
    past L a (m.goTo (f.position + Instruction.compile.size)) := by
  obtain ⟨_, _, htop⟩ := (h.arranged.allowed hcalls hat).values
  have hbusy := (h.goTo hcalls hat rfl).pop
  obtain ⟨v, hback, htype⟩ := h.arranged.back hcalls htop
  obtain ⟨path, rfl⟩ := Value.eq_text_of_type htype
  unfold Exec.Safe execute
  rw [gives_bind, gives_pop, show (m.goTo _).stack.back? = _ from hback]
  exact safe_load ⟨_, hbusy, fun t ht => by cases ht; rfl⟩ _ _

/-! ### Instructions -/

private theorem settles_constant (hat : f.code.At f.position (.constant index)) :
    SettlesAt past L a m f (.constant index) := by
  obtain ⟨c, hget, hliteral⟩ := (h.arranged.allowed hcalls hat).operands
  have hbusy := h.goTo hcalls hat rfl
  have hget' : f.code.constants[index]? = some c := hget
  show (pushConstant (f.code.constants[index]?.getD (.text ""))).Settles past L a _
  rw [hget']
  rcases hliteral with ⟨n, rfl⟩ | ⟨s, rfl⟩
  · refine hbusy.done (v := .number n) trivial fun t ht => ?_
    rw [Instruction.result?, hget'] at ht
    cases ht
  · refine hbusy.done (v := .text s) trivial fun t ht => ?_
    rw [Instruction.result?, hget'] at ht
    cases ht
    rfl

theorem settles_execute (hat : f.code.At f.position i) (hi : i.reachesOut = false) : SettlesAt past L a m f i := by
  cases i with
  | call _ | invoke _ _ | superInvoke _ _ | compile => cases hi
  | constant index => exact settles_constant h hcalls hat
  | closeUpvalue => exact settles_closeUpvalue h hcalls hat
  | setLocal slot => exact settles_setLocal h hcalls hat
  | setUpvalue index => exact settles_setUpvalue h hcalls hat
  | closure index captures => exact settles_makeClosure h hcalls hat
  | ret => exact settles_leave h hcalls hat
  | object index => exact settles_construct h hcalls hat
  | inherit => exact settles_inherit h hcalls hat
  | field index => exact settles_defineField h hcalls hat
  | method index => exact settles_defineMethod h hcalls hat
  | jump distance =>
    exact (h.jump hcalls hat rfl).ready
  | loop distance =>
    exact (h.jump hcalls hat rfl).ready
  | jumpIfFalse distance =>
    unfold SettlesAt Exec.Settles execute
    rw [gives_bind, gives_peek, gives_ite]
    exact ⟨fun _ => (h.goTo hcalls hat rfl).keep.ready,
      fun _ => (h.jump hcalls hat rfl).keep.ready⟩
  | pushNil | pushTrue | pushFalse =>
    exact (h.goTo hcalls hat rfl).goes trivial
  | pop => exact (h.goTo hcalls hat rfl).pop.ready
  | dup =>
    have hbusy := h.goTo hcalls hat rfl
    exact hbusy.keep.goes (hbusy.top_valid _)
  | getLocal slot =>
    have hbusy := h.goTo hcalls hat rfl
    exact hbusy.goes (hbusy.top_valid (f.base + slot))
  | getGlobal index => exact settles_getGlobal (h.goTo hcalls hat rfl) _
  | defineGlobal index =>
    have hbusy := h.goTo hcalls hat rfl
    exact hbusy.pop.define _ hbusy.back_valid
  | setGlobal index =>
    have hbusy := h.goTo hcalls hat rfl
    exact settles_setGlobal hbusy.keep _ (hbusy.top_valid _)
  | getUpvalue index =>
    have hbusy := h.goTo hcalls hat rfl
    exact hbusy.goes (hbusy.sound.read _)
  | getProperty index =>
    have hbusy := (h.goTo hcalls hat rfl).pop
    exact (gives_bind _ _).mpr ((gives_bind _ _).mpr (gives_getProperty
      (fun _ _ _ hw => hbusy.goes (hbusy.sound.property? hw)) fun _ hf => hbusy.faults hf))
  | setProperty index =>
    have hbusy := h.goTo hcalls hat rfl
    have hvalid := hbusy.back_valid
    have hpopped := hbusy.pop.pop
    refine (gives_bind _ _).mpr ((gives_bind _ _).mpr ((gives_bind _ _).mpr ?_))
    refine gives_setProperty (fun _ holder _ _ => ?_) fun _ hf => hpopped.faults hf
    exact Busy.goes ⟨hpopped.sound.modifyObject holder fun object ho => ho.putField hvalid,
      hpopped.midway.congr rfl rfl rfl⟩ hvalid
  | equal | notEqual | greater | greaterEqual | less | lessEqual | add | subtract | multiply | divide | modulo | not
  | negate =>
    have hbusy := (h.goTo hcalls hat rfl).takes
    exact gives_operator rfl (fun _ hv => hbusy.goes hv.valid) fun _ hf => hbusy.faults hf
  | super =>
    have hbusy := (h.goTo hcalls hat rfl).pop
    exact (gives_bind _ _).mpr ((gives_bind _ _).mpr (gives_parentOf (fun _ _ _ _ => hbusy.goes trivial)
      fun _ hf => hbusy.faults hf))

/-- What executing an instruction does to a machine that is ready for it. -/
theorem safe_execute (hat : f.code.At f.position i) :
    (execute f (f.position + i.size) i).Safe past L a (m.goTo (f.position + i.size)) := by
  cases i with
  | compile => exact safe_compile h hcalls hat
  | call arguments => exact safe_callValue (h.goTo hcalls hat rfl)
  | invoke index arguments => exact safe_invoke (h.goTo hcalls hat rfl) _
  | superInvoke index arguments => exact safe_invokeParent (h.goTo hcalls hat rfl) _
  | _ => exact (settles_execute h hcalls hat rfl).safe

end

/-! ### Steps -/

theorem Machine.Ready.congr (h : m.Ready past L a) (hstack : m'.stack = m.stack)
    (hframes : m'.frames = m.frames) (hcells : m'.cells = m.cells) (hsound : m'.Sound past) : m'.Ready past L a := by
  obtain ⟨type, hmidway, htype⟩ := h.arranged
  refine ⟨hsound, type, hmidway.congr ?_ hstack hcells, hstack ▸ htype⟩
  rw [calls, calls, hframes]

/-- Neither the output nor what a machine has noted matters to it. -/
theorem Machine.Ready.shown (h : m.Ready past L a) (output : String) (events : Array Event) :
    ({ m with output, events } : Machine).Ready past L a :=
  h.congr rfl rfl rfl (h.sound.congr rfl rfl rfl rfl rfl h.sound.library)

theorem Machine.Running.of_program {p : Program} (h : m.Running past L a) (hback : m.stack.back? = some (.program p)) :
    ∃ m0 : Machine, m = m0.withStack (m0.stack.push (.program p)) ∧ p.IsCompiled ∧ m0.Awaits past L a := by
  rcases h with hready | ⟨m0, q, rfl, hq, hawaits⟩
  · rw [Array.back?_eq_getElem?] at hback
    exact (hready.sound.valid_of_getElem? hback).elim
  · rw [withStack_stack, Array.back?_push] at hback
    cases hback
    exact ⟨m0, rfl, hq, hawaits⟩

theorem gives_startProgram (h : m.Running past L a) :
    startProgram.Gives m (fun _ m' => m'.Ready past L a) (Halts past L a) := by
  refine gives_startProgram_of (fun p hback => ?_) fun hne => ?_
  · obtain ⟨m0, rfl, ⟨path, source, hp⟩, type, hbusy, htype⟩ := h.of_program hback
    have hunit := isUnit_of_compileObject hp
    have hvalid : ∀ m : Machine, ∀ serial, Closure.Valid m.moment ⟨serial, p.routine, #[]⟩ :=
      fun m serial => Closure.valid_of_unit (.inr ⟨path, source, hp⟩) hunit serial
    rw [withStack_stack, withStack_nextSerial, Array.pop_push]
    obtain ⟨c, hc⟩ : ∃ c, c = Closure.mk m0.nextSerial p.routine #[] := ⟨_, rfl⟩
    have hmidway : (m0.withStack (m0.stack.push (.closure c))).Midway past L a 1 1 type := by
      refine hbusy.midway.withStack _ ?_ ?_ fun g hg _ => ?_
      · rw [Array.size_push]
        omega
      · rw [Array.size_push]
        omega
      · have hlt := hbusy.midway.base_add_lt hg
        rw [Array.getElem?_push, if_neg (by omega)]
    have hpushed := hbusy.sound.push (v := .closure c) (hc ▸ hvalid m0 m0.nextSerial)
    have hbusy' : ((m0.withStack (m0.stack.push (.closure c))).withSerial (m0.nextSerial + 1)).Busy
        past L a 1 1 type := ⟨hpushed.withSerial _, hmidway.congr rfl rfl rfl⟩
    rw [← hc]
    exact gives_callClosure_ready (hc ▸ hbusy' :) (hc ▸ hvalid _ _) fun t ht => ⟨htype t ht, hc ▸ hunit.kind_eq⟩
  · rcases h with hready | ⟨m0, p, rfl, _⟩
    · exact hready
    · exact absurd Array.back?_push (hne p)

theorem Exec.startProgram_eq (h : ∀ p, m.stack.back? ≠ some (.program p)) : startProgram m = .ok () m := by
  rw [startProgram, get_bind]
  cases hback : m.stack.back? with
  | none => rfl
  | some v =>
    cases v with
    | program p => exact absurd hback (h p)
    | _ => rfl

theorem Machine.Ready.startProgram_eq (h : m.Ready past L a) : startProgram m = .ok () m := by
  refine Exec.startProgram_eq fun p hback => ?_
  rw [Array.back?_eq_getElem?] at hback
  exact h.sound.valid_of_getElem? hback

theorem Machine.Ready.exists_call (h : m.Ready past L a) : ∃ f rest, m.calls = f :: rest := by
  obtain ⟨_, hmidway, _⟩ := h.arranged
  cases hcalls : m.calls with
  | nil =>
    have hstacked := hmidway.stacked
    rw [hcalls] at hstacked
    cases hstacked
  | cons f rest => exact ⟨f, rest, rfl⟩

theorem Machine.Ready.exists_at (h : m.Ready past L a) :
    ∃ f rest i, m.calls = f :: rest ∧ m.frames.back? = some f ∧ f.code.At f.position i := by
  obtain ⟨f, rest, hcalls⟩ := h.exists_call
  obtain ⟨_, hmidway, _⟩ := h.arranged
  obtain ⟨i, hat⟩ := (hmidway.rests hcalls).instruction
  refine ⟨f, rest, i, hcalls, ?_, hat⟩
  rw [← head?_calls, hcalls]
  rfl

private theorem gives_traceInstruction (f : Frame) :
    (traceInstruction f).Gives m (fun _ m' => ∃ events, m' = { m with events }) fun _ _ => False := by
  show Exec.Gives (if m.settings.traceExecution = true then _ else _) m _ _
  split
  · exact ⟨_, rfl⟩
  · exact ⟨m.events, rfl⟩

structure Code.Reads (code : Code) (offset : Nat) (i : Instruction) : Prop where
  lt_size : offset < code.size
  instruction : code.instructionAt? offset = some i

theorem Code.At.reads {code : Code} {offset : Nat} (h : code.At offset i) :
    code.Reads offset i := ⟨h.lt_size, h.instruction⟩

theorem gives_step_of_reads
    (h : startProgram.Gives m (fun _ m1 => ∃ f i, m1.frames.back? = some f ∧ f.code.Reads f.position i ∧
      ∀ events, (execute f (f.position + i.size) i).Gives
        (({ m1 with events } : Machine).goTo (f.position + i.size)) Q E) E) : step.Gives m Q E := by
  unfold step
  rw [gives_bind]
  refine h.mono (fun _ m1 ⟨f, i, hback, hreads, hexecute⟩ => ?_) fun _ _ hstop => hstop
  rw [gives_bind, gives_get, hback]
  show Exec.Gives (if f.code.size ≤ f.position then _ else _) m1 _ _
  rw [if_neg (Nat.not_le.mpr hreads.lt_size)]
  refine (gives_bind _ _).mpr ((gives_traceInstruction f).mono (fun _ m2 htrace => ?_) fun _ _ h => h.elim)
  obtain ⟨events, rfl⟩ := htrace
  rw [Code.fetch?_eq, hreads.instruction]
  exact (gives_bind _ _).mpr (hexecute events)

/-- A step, once a program has been started if there was one, executes the instruction that the innermost
call is at. -/
theorem gives_step (h : startProgram.Gives m (fun _ m1 => ∃ f i, m1.frames.back? = some f ∧ f.code.At f.position i ∧
      ∀ events, (execute f (f.position + i.size) i).Gives
        (({ m1 with events } : Machine).goTo (f.position + i.size)) Q E) E) : step.Gives m Q E := by
  apply gives_step_of_reads
  apply h.mono
  · rintro _ m1 ⟨f, i, hback, hat, hexecute⟩
    exact ⟨f, i, hback, hat.reads, hexecute⟩
  · exact fun _ _ hstop => hstop

theorem safe_step (h : m.Running past L a) : step.Safe past L a m := by
  refine gives_step ((gives_startProgram h).mono (fun _ m1 hready => ?_) fun _ _ hstop => hstop)
  obtain ⟨f, rest, i, hcalls, hback, hat⟩ := hready.exists_at
  refine ⟨f, i, hback, hat, fun events => ?_⟩
  exact safe_execute (hready.shown m1.output events) hcalls hat

/-- The instruction that the next step of a machine executes, and where it goes on. There is none if a program
has to be started first, or if steps are noted. -/
def Machine.upcoming? (m : Machine) : Option (Nat × Instruction) :=
  match m.stack.back?, m.frames.back? with
  | some (.program _), _ => none
  | _, none => none
  | _, some f =>
    if f.code.size ≤ f.position ∨ m.settings.traceExecution then none
    else (f.code.instructionAt? f.position).map fun i => (f.position + i.size, i)

theorem Exec.step_of_upcoming? {next : Nat} (h : m.upcoming? = some (next, i)) :
    ∃ f, m.frames.back? = some f ∧ step m = execute f next i (m.goTo next) := by
  unfold upcoming? at h
  split at h
  · cases h
  · cases h
  · rename_i f hback hne
    split at h
    · cases h
    rename_i hclear
    obtain ⟨hlt, htrace⟩ := not_or.mp hclear
    obtain ⟨j, hj, hnext⟩ := Option.map_eq_some_iff.mp h
    cases hnext
    have hstart : startProgram m = .ok () m := startProgram_eq hne
    have hnoted : traceInstruction f m = .ok () m := by
      show (if m.settings.traceExecution = true then _ else _ : Exec Unit) m = _
      rw [if_neg htrace]
      rfl
    refine ⟨f, hback, ?_⟩
    simp only [step, bind, EStateM.bind, hstart, get, getThe, MonadStateOf.get, EStateM.get, hback, if_neg hlt,
      hnoted, Code.fetch?_eq, hj]
    rfl

end Mudscript
