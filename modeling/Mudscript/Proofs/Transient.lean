import Mudscript.Proofs.Constructions

/-!
# Programs that wait

The program of an object unit gets onto the stack when a unit inherits, and when a script or a function
loads an object. The next turn starts it before it executes anything, so no instruction ever sees a
program: it cannot be stored, captured or called, and no run returns one. What is in its place when the
unit returns is the object that the unit has made.
-/

namespace Mudscript

open Machine Exec

variable {next : Nat}

variable {past : Moment} {L : Layouts} {a : Activity} {m m' m1 : Machine} {f : Frame} {rest : List Frame}
  {i : Instruction} {p : Program} {n : Native} {v : Value} {path : String} {count : Nat}

/-! ### Machines without programs -/

/-- No program is on the stack, in a global variable, in a member of an object, or in a captured variable,
whether that is still on the stack or not. -/
structure Machine.Programless (m : Machine) : Prop where
  held : ∀ p, ¬ m.Contains (.program p)
  captured : ∀ id p, m.cells.read id m.stack ≠ .program p

theorem Machine.Sound.programless (h : m.Sound past) : m.Programless := by
  refine ⟨fun p hp => h.values hp, fun id p hread => ?_⟩
  unfold Cells.read at hread
  split at hread
  · rename_i slot _
    have hvalid : (Cells.slotValue m.stack slot).Valid m.moment := Value.valid_getD fun v hv => h.valid_of_getElem? hv
    exact hvalid.ne_program p hread
  · rename_i w hw
    exact (h.closed w (Array.mem_of_getElem? hw)).ne_program p hread
  · cases hread

/-- The value that an instruction calls, and with how many arguments: the one below them, or that member of
the object below them. -/
def Machine.callee? (m : Machine) (f : Frame) : Instruction → Option (Value × Nat)
  | .call arguments => some (m.stack[m.stack.size - 1 - arguments]?.getD .nil, arguments)
  | .invoke name arguments =>
    match m.stack[m.stack.size - 1 - arguments]?.getD .nil with
    | .object o => (m.objects.property? o (f.code.nameAt name)).map (·, arguments)
    | _ => none
  | _ => none

theorem Machine.taken_of_callee? (h : m.callee? f i = some (v, count)) : i.taken = count + 1 := by
  cases i with
  | call arguments =>
    cases h
    rfl
  | invoke name arguments =>
    unfold callee? at h
    dsimp only at h
    split at h
    · obtain ⟨w, _, heq⟩ := Option.map_eq_some_iff.mp h
      cases heq
      rfl
    · cases h
  | _ => cases h

theorem Machine.Sound.callee_valid (h : m.Sound past) (hv : m.callee? f i = some (v, count)) : v.Valid m.moment := by
  cases i with
  | call arguments =>
    cases hv
    exact Value.valid_getD fun v hv => h.valid_of_getElem? hv
  | invoke name arguments =>
    unfold callee? at hv
    dsimp only at hv
    split at hv
    · obtain ⟨w, hw, heq⟩ := Option.map_eq_some_iff.mp hv
      cases heq
      exact h.property? hw
    · cases hv
  | _ => cases hv

/-! ### Results of runs -/

theorem Exec.execute_ends (hret : i ≠ .ret) (hcalls : m.calls ≠ []) :
    (execute f next i).Gives m (fun _ _ => True) fun _ m' => m'.calls ≠ [] := by
  by_cases hpath : i.leavesPath = false
  · apply (shortsighted_deepens.execute (.inl shortsighted_deepens) (fun _ _ => .of_eq rfl) (fun _ _ _ _ => .of_eq rfl)
      (fun _ _ _ _ => .of_eq rfl) (.inr hpath) (.inl fun _ _ => .of_eq rfl)
      (.inl fun _ _ => .of_eq rfl) (.inl fun _ _ => .of_eq rfl)).mono
    · exact fun _ _ _ => trivial
    · rintro stop m' ⟨⟨entered, hcalls', _⟩, _⟩
      rw [hcalls']
      exact List.append_ne_nil_of_right_ne_nil _ hcalls
  · cases i with
    | jump _ | loop _ => trivial
    | jumpIfFalse _ =>
      unfold execute
      rw [gives_bind, gives_peek, gives_ite]
      exact ⟨fun _ => trivial, fun _ => trivial⟩
    | ret => exact absurd rfl hret
    | _ => exact absurd rfl hpath

/-- A run ends when its only call returns, and the value that was on top of the stack is its result. -/
theorem Session.Turn.finishes (hturn : Session.Turn m (.error (.finished v) m')) (h : m.Running past L a) :
    ∃ m1 f, m.Fetches past L a m1 f [] .ret ∧ v = m1.stack.back?.getD .nil ∧ m'.objects = m1.objects ∧
      m'.library = m1.library := by
  obtain ⟨hidle, _⟩ := (hturn.safe h).2 _ _ rfl (fun _ => nofun)
  have hnone : m'.calls = [] := by
    rw [calls, hidle.frames_eq]
    rfl
  rcases hturn.performs h with ⟨stop, m'', hstart, heq⟩ | ⟨m1, f, rest, i, hfetches, hperforms⟩
  · obtain ⟨⟨fault, rfl⟩, _⟩ := (startProgram_stop m).error hstart
    cases heq
  cases hperforms with
  | @alone events _ heq _ =>
    have hcalls : ∀ position, (({ m1 with events } : Machine).goTo position).calls = { f with position } :: rest :=
      fun position => calls_goTo (m := { m1 with events }) hfetches.calls_eq position
    by_cases hret : i = .ret
    · subst hret
      have hleave : (leave f).Gives (({ m1 with events } : Machine).goTo (f.position + Instruction.ret.size))
          (fun _ _ => True) fun stop m2 => stop = .finished (m1.stack.back?.getD .nil) ∧ m2.calls = rest ∧
            m2.objects = m1.objects ∧ m2.library = m1.library :=
        gives_leave f (fun _ => ⟨rfl, calls_pop (hcalls _), rfl, rfl⟩) fun _ => trivial
      obtain ⟨hv, hrest, hobjects, hlibrary⟩ := hleave.error heq
      cases hv
      obtain rfl : rest = [] := hrest.symm.trans hnone
      exact ⟨m1, f, hfetches, rfl, hobjects, hlibrary⟩
    · refine absurd hnone ((execute_ends hret ?_).error heq)
      rw [hcalls]
      exact List.cons_ne_nil _ _
  | answered _ haction hresult =>
    obtain ⟨fault, heq⟩ := haction.gives.error hresult
    cases heq

theorem Session.Turn.finished_valid (hturn : Session.Turn m (.error (.finished v) m')) (h : m.Running past L a) :
    ∃ now, v.Valid now := by
  obtain ⟨m1, f, hfetches, rfl, _, _⟩ := hturn.finishes h
  refine ⟨m1.moment, Value.valid_getD fun w hw => ?_⟩
  rw [Array.back?_eq_getElem?] at hw
  exact hfetches.ready.sound.valid_of_getElem? hw

private theorem Session.course_valid (past : Moment) (L : Layouts) (a : Activity) :
    Session.Course (Machine.Running past L a)
    (fun v _ => ∃ now, v.Valid now) fun _ _ => True where
  goes _ _ h hturn := (hturn.safe h).1 _ rfl
  finishes _ _ _ h hturn := hturn.finished_valid h
  fails _ _ _ _ _ := trivial
  shown m output h := h.shown output m.events
  shown_finished _ _ _ h := h
  shown_failed _ _ _ _ := trivial

private theorem Session.interpret_valid {host : Host Id} {fuel : Nat} {name source : String} {r : Routine}
    (h : m.Idle past) (hrelay : RelaysOutput host) (hr : compileScript name source = .ok r)
    (hresult : (m.interpret host fuel r).1 = .ok v) : ∃ now, v.Valid now := by
  have hrun := (course_valid past .some .script).run hrelay fuel
    ((gives_enter h hr).mono (fun _ _ hready => .inl hready) fun _ _ h => h.elim)
  rw [show (host.run fuel (Exec.enter r) m).1 = _ from hresult] at hrun
  exact hrun

/-! ### Loading -/

def Machine.Loaded (path : String) (key : String) (stack : Array Value) (frames : Array Frame) (m : Machine) : Prop :=
  ∃ p, m.stack = stack.push (.program p) ∧ m.frames = frames ∧ m.library.key path = key ∧
    m.library.programs[key]? = some p

/-- The text of a path is asked for, before anything is put on the stack. -/
def Machine.Wants (path : String) (key : String) (stack : Array Value) (frames : Array Frame) (r : Request)
    (m : Machine) : Prop :=
  m.stack = stack ∧ m.frames = frames ∧ m.library.key path = key ∧ m.library.programs[key]? = none ∧
    ∃ file caller, r = .source key file caller

/-- The program of a path comes to lie on top of a stack, at once or when its text is there. -/
def Exec.Obtains (action : Exec Unit) (m : Machine) (path : String) (stack : Array Value) : Prop :=
  action.Gives m (fun _ m' => m'.Loaded path (m.library.key path) stack m.frames)
    fun stop m' => ∀ r, stop = .request r → m'.Wants path (m.library.key path) stack m.frames r

variable {key : String} {stack : Array Value} {frames : Array Frame}

theorem Exec.loaded_of_receive {caller : Option String} {loading : Library.Loading}
    (hbrings : m.library.Brings path m.nextSerial loading) :
    (receive caller loading).Gives m (fun _ m' => m'.Loaded path (m.library.key path) m.stack m.frames)
      fun stop _ => ∀ r, stop ≠ .request r :=
  gives_receive (fun p hresult => ⟨p, rfl, rfl, hbrings.enrolls.toGrows.key_eq path, hbrings.kept hresult⟩)
    (fun _ _ => nofun) fun _ _ _ => nofun

private theorem Exec.loads_load (caller : Option String) (path : String) :
    (load caller path).Obtains m path m.stack := by
  refine gives_load (fun loading hbrings => ?_) fun file hnew r hr => ?_
  · exact (loaded_of_receive hbrings).mono (fun _ _ hloaded => hloaded) fun _ _ hne r heq => absurd heq (hne r)
  · cases hr
    exact ⟨rfl, rfl, rfl, hnew, file, caller, rfl⟩

theorem Machine.Wants.answer {r : Request} {action : Exec Unit} (h : m.Wants path key stack frames r)
    (haction : Session.Answers r action) (output : String) :
    action.Gives { m with output } (fun _ m' => m'.Loaded path key stack frames) fun _ _ => True := by
  obtain ⟨rfl, rfl, rfl, hnew, file, caller, rfl⟩ := h
  cases haction with
  | source text =>
    unfold receiveSource
    rw [gives_bind, gives_get, gives_bind, gives_get]
    exact (loaded_of_receive (m := { m with output }) (Library.comes_enroll hnew text)).mono
      (fun _ _ hloaded => hloaded) fun _ _ _ => trivial

private theorem shrink_setIfInBounds {α : Type} (xs : Array α) (n : Nat) (x : α) :
    (xs.setIfInBounds n x).shrink n = xs.shrink n := by
  apply Array.ext
  · rw [Array.size_shrink, Array.size_shrink, Array.size_setIfInBounds]
  · intro j hj _
    rw [Array.size_shrink] at hj
    rw [Array.getElem_shrink, Array.getElem_shrink, Array.getElem_setIfInBounds, if_neg (by omega)]

/-- A call of the function that loads takes itself and its arguments off the stack first. -/
theorem Exec.loads_callNative (haction : n.action = .load)
    (hpath : m.stack[m.stack.size - count]? = some (.text path)) :
    (callNative n count).Obtains m path (m.stack.shrink (m.stack.size - (count + 1))) := by
  have hlt := (Array.getElem?_eq_some_iff.mp hpath).1
  have hargument : (m.stack.extract (m.stack.size - count) m.stack.size)[0]?.getD .nil = .text path := by
    rw [Array.getElem?_extract, if_pos (by omega), Nat.add_zero, hpath]
    rfl
  have htaken : (m.stack.shrink (m.stack.size - count)).pop = m.stack.shrink (m.stack.size - (count + 1)) := by
    rw [pop_shrink (Nat.sub_le _ _), Nat.sub_sub]
  have hperform : (perform n (m.stack.extract (m.stack.size - count) m.stack.size)).Obtains
      (m.withStack (m.stack.shrink (m.stack.size - (count + 1)))) path
        (m.stack.shrink (m.stack.size - (count + 1))) := by
    unfold perform
    rw [haction]
    dsimp only
    rw [hargument]
    exact loads_load _ _
  exact gives_callNative (htaken ▸ hperform) fun _ _ => nofun

private theorem Exec.loads_execute (hcallee : m.callee? f i = some (.native n, count))
    (haction : n.action = .load) (hcount : count < m.stack.size)
    (hpath : m.stack[m.stack.size - count]? = some (.text path)) :
    (execute f next i).Obtains m path (m.stack.shrink (m.stack.size - (count + 1))) := by
  cases i with
  | call arguments =>
    obtain ⟨hnative, rfl⟩ := Prod.mk.inj (Option.some.inj hcallee)
    show (callValue arguments).Gives m _ _
    unfold callValue
    rw [gives_bind, gives_peek, hnative]
    exact loads_callNative haction hpath
  | invoke name arguments =>
    unfold callee? at hcallee
    dsimp only at hcallee
    split at hcallee
    · rename_i o ho
      obtain ⟨w, hw, heq⟩ := Option.map_eq_some_iff.mp hcallee
      obtain ⟨rfl, rfl⟩ := Prod.mk.inj heq
      show (invoke (f.code.nameAt name) arguments).Gives m _ _
      apply gives_invoke
      · intro o' c ho' hc
        cases ho.symm.trans ho'
        cases hw.symm.trans hc
      · intro o' w' ho' hw'
        cases ho.symm.trans ho'
        cases hw.symm.trans hw'
        -- The function takes the place of the object.
        have hslot : m.stack.size - 1 - arguments = m.stack.size - (arguments + 1) := by omega
        have hpath' : (m.withStack (m.stack.setIfInBounds (m.stack.size - 1 - arguments) (.native n))).stack[
            (m.stack.setIfInBounds (m.stack.size - 1 - arguments) (.native n)).size - arguments]?
              = some (.text path) := by
          rw [withStack_stack, Array.size_setIfInBounds, Array.getElem?_setIfInBounds_ne (by omega), hpath]
        have hcall := loads_callNative haction hpath'
        rw [withStack_stack, Array.size_setIfInBounds, hslot, shrink_setIfInBounds] at hcall
        unfold callValue
        rw [gives_bind, gives_peek, withStack_stack, Array.size_setIfInBounds, hslot,
          Array.getElem?_setIfInBounds_self_of_lt (by omega)]
        exact hcall
      · exact fun _ _ _ => nofun
    · cases hcallee
  | _ => cases hcallee

theorem Machine.Performs.loads (h : m.Performs f i (.ok () m')) (hcallee : m.callee? f i = some (.native n, count))
    (haction : n.action = .load) (hcount : count < m.stack.size)
    (hpath : m.stack[m.stack.size - count]? = some (.text path)) :
    m'.Loaded path (m.library.key path) (m.stack.shrink (m.stack.size - (count + 1)))
      (m.goTo (f.position + i.size)).frames := by
  apply h.gives (E := fun r m1 => m1.Wants path (m.library.key path) (m.stack.shrink (m.stack.size - (count + 1)))
    (m.goTo (f.position + i.size)).frames r)
  · exact fun events => loads_execute (m := ({ m with events } : Machine).goTo (f.position + i.size))
      hcallee haction hcount hpath
  · exact fun r m1 output action hwants hanswer => hwants.answer hanswer output

namespace Session

private theorem loaded_object {m'' : Machine} (h : Reached ⟨a, m⟩) (ha : a ≠ .idle)
    (hback : m.stack.back? = some (.program p)) (hturn : Turn m (.ok () m'))
    (hproceeds : Proceeds m.frames.size m' m'') (hreturned : m''.frames.size ≤ m.frames.size) :
    m''.frames = m.frames ∧ m''.stack.size = m.stack.size ∧
      ∃ o, m''.stack.back? = some (.object o) ∧ m.objects.size ≤ o ∧ o < m''.objects.size ∧
        ∀ path, m.library.programs[path]? = some p → m''.objects.nameOf o = path := by
  have hrunning := (h.orderly .some).running ha
  have hreached : Reached ⟨a, m'⟩ := h.leads (.single (.turn ha hturn))
  have hlength : m.calls.length = m.frames.size := by simp [calls]
  have hpositive : 0 < m.stack.size := by
    rw [Array.back?_eq_getElem?] at hback
    have := (Array.getElem?_eq_some_iff.mp hback).1
    omega
  rw [← hlength] at hproceeds
  have hunder : ∀ inner position base (c : Closure), m''.calls ≠ inner ++ ⟨c, position, base⟩ :: m.calls := by
    intro inner position base c hcalls
    have hlength' := congrArg List.length hcalls
    simp only [calls, List.length_reverse, Array.length_toList, List.length_append, List.length_cons] at hlength'
    omega
  obtain ⟨hconstructs, hobject⟩ := constructs_of_program hrunning hback hturn
  -- The calls and the height of the stack, and the object.
  rcases hproceeds.hosts hreached ha (hosts_of_program hrunning hback hturn) with hhosts | ⟨_, _, _, _, _, hresumes⟩
  · obtain ⟨inner, position, hcalls⟩ := hhosts.calls
    exact absurd hcalls (hunder _ _ _ _)
  rcases hproceeds.constructs hreached ha hobject hconstructs with hc | ⟨_, o, name, q, hslot, hle, hname, hq, hroutine⟩
  · obtain ⟨inner, position, hcalls, _⟩ := hc.calls
    exact absurd hcalls (hunder _ _ _ _)
  have hsize : m''.stack.size = m.stack.size := by
    have := hresumes.size_eq
    omega
  refine ⟨Array.toList_inj.mp (List.reverse_injective hresumes.calls_eq), hsize, o, ?_, hle, ?_, fun path hp => ?_⟩
  · rw [Array.back?_eq_getElem?, hsize]
    exact hslot
  · exact Objects.size_kinship ▸ hname.lt_size
  · -- A routine is the unit of one path only.
    obtain ⟨source, hcompiled⟩ := h.inLine.keyed path p hp
    obtain ⟨source', hcompiled'⟩ := (hreached.leads (hproceeds.leads ha)).inLine.keyed name q hq
    rw [hroutine] at hcompiled'
    rw [Objects.nameOf_eq hname]
    exact path_unique hcompiled' hcompiled

/-- Programs are never there for long. Between turns there may be one on top of the stack; before an
instruction is executed there is none, neither on the stack nor in a variable or an object, so none is ever
called as a value, and none is the result of a run. A call of the function that loads leaves the program of
the path in place of itself, and when the unit of a program has returned there is a new object in its place,
of the name under which the library keeps the program. -/
theorem programs_transient {a : Activity} {m : Machine} (h : Reached ⟨a, m⟩) :
    (a = .idle → m.Programless ∧ ∀ (host : Host Id) fuel name source r v, RelaysOutput host →
      compileScript name source = .ok r → (m.interpret host fuel r).1 = .ok v → ∀ p, v ≠ .program p) ∧ (a ≠ .idle →
      (∀ m1, startProgram m = .ok () m1 → m1.Programless ∧ ∀ f i, m1.frames.back? = some f →
        f.code.At f.position i → ∀ p count, m1.callee? f i ≠ some (.program p, count)) ∧
      (∀ v m', Turn m (.error (.finished v) m') → ∀ p, v ≠ .program p) ∧
      (∀ m1 f i n count path m', startProgram m = .ok () m1 → m1.frames.back? = some f →
        f.code.At f.position i → m1.callee? f i = some (.native n, count) → n.action = .load →
        m1.stack[m1.stack.size - count]? = some (.text path) → Turn m (.ok () m') →
          ∃ p, m'.stack = (m1.stack.shrink (m1.stack.size - (count + 1))).push (.program p) ∧
            m'.frames = (m1.goTo (f.position + i.size)).frames ∧
            m'.library.programs[m'.library.key path]? = some p) ∧
      ∀ p m' m'', m.stack.back? = some (.program p) → Turn m (.ok () m') → Proceeds m.frames.size m' m'' →
        m''.frames.size ≤ m.frames.size → m''.frames = m.frames ∧ m''.stack.size = m.stack.size ∧
          ∃ o, m''.stack.back? = some (.object o) ∧ m.objects.size ≤ o ∧ o < m''.objects.size ∧
            ∀ path, m.library.programs[path]? = some p → m''.objects.nameOf o = path) := by
  have horderly := h.orderly .some
  constructor
  · intro ha
    have hidle := horderly.idle ha
    refine ⟨hidle.sound.programless, fun host fuel name source r v hrelay hr hresult => ?_⟩
    obtain ⟨m1, hvalid⟩ := interpret_valid hidle hrelay hr hresult
    exact hvalid.ne_program
  intro ha
  have hrunning := horderly.running ha
  refine ⟨fun m1 hstart => ?_, fun v m' hturn => ?_, ?_, ?_⟩
  · have hsound := ((gives_startProgram hrunning).ok hstart).sound
    refine ⟨hsound.programless, fun f i _ _ p count hcallee => ?_⟩
    exact (hsound.callee_valid hcallee).ne_program p rfl
  · obtain ⟨m1, hvalid⟩ := hturn.finished_valid hrunning
    exact hvalid.ne_program
  · intro m1 f i n count path m' hstart hback hat hcallee haction hpath hturn
    obtain ⟨m2, f', rest, j, hfetches, hperforms⟩ := hturn.fetches hrunning
    cases hfetches.started.symm.trans hstart
    cases hfetches.back.symm.trans hback
    cases hfetches.instruction.unique hat
    have hcount : count < m1.stack.size := by
      have hret : i ≠ .ret := by
        rintro rfl
        cases hcallee
      have htaken := hfetches.ready.base_add_taken_lt hfetches.calls_eq hat hret
          (hfetches.calls_eq ▸ List.mem_cons_self)
      rw [taken_of_callee? hcallee] at htaken
      omega
    obtain ⟨p, hstack, hframes, hkey, hp⟩ := hperforms.loads hcallee haction hcount hpath
    exact ⟨p, hstack, hframes, by rw [hkey]; exact hp⟩
  · intro p m' m'' hback hturn hproceeds hreturned
    exact loaded_object h ha hback hturn hproceeds hreturned

set_option maxRecDepth 20000 in
set_option synthInstance.maxSize 100000 in
/-- A script that loads an object, and the unit of the object. What comes of the request to the library is left
open. -/
theorem exists_loading (source : ObjectSource) (loading : Library.Loading) (loads : Native)
    (hloads : loads = ⟨"load", .exactly 1, .load⟩) :
    ∃ r, compileScript "main" "load(\"a\");" = .ok r ∧ ∃ ra, compileObject "/a" "int x=true;" = .ok ra ∧
      ∃ m, enter r (start {} source "").machine = .ok () m ∧ m.upcoming? = some (3, .getGlobal 0) ∧
        m.frames.back?.map (·.code.nameAt 0) = some "load" ∧
      ∃ m1, push (.native loads) (m.goTo 3) = .ok () m1 ∧
      ∃ m2, step m1 = .ok () m2 ∧ m2.upcoming? = some (8, .call 1) ∧ m2.nextSerial = 1 ∧
      ∃ m3, receive (some "load") ⟨.ok ⟨1, ra⟩, loading.library, loading.events⟩
          ((m2.goTo 8).withStack m2.stack.pop.pop) = .ok () m3 ∧ m3.frames.size = 1 ∧
      ∃ m4, step m3 = .ok () m4 ∧ (∀ k < 3, ∃ m5, steps k m4 = .ok () m5 ∧ 1 < m5.frames.size) ∧
      ∃ m', steps 3 m4 = .ok () m' ∧ m'.frames.size = 1 ∧
        (m.globals, m2.library, m2.stack.toList.tail) = ((start {} source "").machine.globals,
          (start {} source "").machine.library, [.native loads, .text "a"]) := by
  subst hloads
  exact Computed.intro _ (by cbv)

/-- A script that loads an object: the program is there after one turn, and after a few more the object. -/
theorem programs_transient_script :
    ∃ (m m' m1 m'' : Machine) (p : Program) (o : ObjectId), Reached ⟨.script, m⟩ ∧ Turn m (.ok () m') ∧
      m'.stack.back? = some (.program p) ∧ Turn m' (.ok () m1) ∧ Proceeds m'.frames.size m1 m'' ∧
      m''.stack.back? = some (.object o) ∧ m''.objects.nameOf o = "/a" := by
  have hactive : Activity.script ≠ .idle := by rintro ⟨⟩
  obtain ⟨source, hsource⟩ : ∃ source : ObjectSource, source = .ofTexts [("a", "int x=true;")] := ⟨_, rfl⟩
  obtain ⟨l, hl⟩ : ∃ l : Library, l = { source, extension := "" } := ⟨_, rfl⟩
  obtain ⟨loading, hloading⟩ : ∃ loading, l.load "a" 1 (fun file => .error (.noObject file)) = loading := ⟨_, rfl⟩
  obtain ⟨loads, hloads⟩ : ∃ loads : Native, loads = ⟨"load", .exactly 1, .load⟩ := ⟨_, rfl⟩
  obtain ⟨r, hr, ra, hra, m, hm, hupcoming, hname, m1, hm1, m2, hm2, hupcoming2, hserial, m3, hm3, hframes, m4,
    hm4, hinside, m', hm', hframes', hseen⟩ := exists_loading source loading loads hloads
  simp only [Prod.mk.injEq] at hseen
  obtain ⟨hglobals, hlibrary, htail⟩ := hseen
  have hresult : loading.result = .ok ⟨1, ra⟩ := by
    subst hsource hl hloading
    exact Library.result_of_text (by cbv) hra 1 _
  have hask : m2.library.ask "a" m2.nextSerial = .loaded ⟨.ok ⟨1, ra⟩, loading.library, loading.events⟩ := by
    rw [hlibrary.trans (show _ = l from hl.symm), hserial, Library.ask_of_memory (by rw [hl, hsource]; rfl) "a" 1,
      hloading, ← hresult]
  have hstep : step m = .ok () m1 := by
    obtain ⟨f, hback, hstep⟩ := step_of_upcoming? hupcoming
    rw [hback, Option.map_some, Option.some.injEq] at hname
    rw [hstep]
    show getGlobal (f.code.nameAt 0) (m.goTo 3) = _
    rw [hname, getGlobal, get_bind, show (m.goTo 3).globals = _ from hglobals,
      show (start {} source "").machine.globals["load"]? = some (.native loads) by
        rw [hloads]; exact Std.HashMap.getElem?_insert_self]
    exact hm1
  have hstack : ∃ v, m2.stack = #[v, .native loads, .text "a"] := by
    rcases heq : m2.stack with ⟨_ | ⟨v, values⟩⟩
    · rw [heq] at htail
      cases htail
    · rw [heq] at htail
      cases htail
      exact ⟨v, rfl⟩
  have hstep2 : step m2 = .ok () m3 := by
    obtain ⟨f, _, hstep⟩ := step_of_upcoming? hupcoming2
    obtain ⟨v, hstack⟩ := hstack
    rw [hstep, ← hm3]
    obtain ⟨settings, library, globals, objects, cells, stack, frames, output, events, serial⟩ := m2
    cases hstack
    subst hloads
    show load (some "load") "a" _ = _
    exact load_of_ask (by exact hask)
  have hback : m3.stack.back? = some (.program ⟨1, ra⟩) ∧ m3.library = loading.library := by
    cases (show EStateM.Result.ok () _ = EStateM.Result.ok () m3 from hm3)
    exact ⟨Array.back?_push, rfl⟩
  have hturn : Turn m3 (.ok () m4) := .step hm4 (by rintro _ _ ⟨⟩)
  have hreached : Reached ⟨.script, m⟩ := (reached_start source).leads (.single (.script hr hm))
  have hreached2 : Reached ⟨.script, m2⟩ := (hreached.step hactive hstep).step hactive hm2
  have hproceeds : Proceeds m3.frames.size m4 m' := by
    rw [hframes]
    exact .of_steps hinside hm'
  obtain ⟨_, _, _, hobject⟩ := (programs_transient (hreached2.step hactive hstep2)).2 hactive
  obtain ⟨_, _, o, htop, _, _, hname⟩ := hobject _ m4 m' hback.1 hturn hproceeds (by omega)
  refine ⟨m2, m3, m4, m', _, o, hreached2, .step hstep2 (by rintro _ _ ⟨⟩), hback.1, hturn, hproceeds, htop, ?_⟩
  apply hname
  have hkey : l.key "a" = "/a" := by
    rw [hl]
    cbv
  rw [hback.2, ← hkey]
  exact (Library.brings_load hloading).kept hresult

end Session

end Mudscript
