import Mudscript.Proofs.Realm
import Mudscript.Proofs.Safety

/-!
# Loading objects in a sandbox

The code of an object unit does not know global variables, so what it works with while its object is
constructed is what it makes itself: new objects, new cells, and functions written in object units.
Functions of the host are not among that. Hence loading an object, and with it all its parents, leaves
the global variables and the output alone, whatever the machine has been through before, and at every
moment of it.
-/

namespace Mudscript

open Machine Exec

variable {f : Frame} {i : Instruction} {p : Program}

variable {action : Exec Unit} {host : Host Id} {loading : Library.Loading}
    {textOf : String → Except FileError String}

variable {m m1 m2 : Machine} {path : String}

namespace Machine

/-- A machine between two runs. Its global variables and its objects may hold anything. -/
structure AtRest (m : Machine) : Prop where
  stack_eq : m.stack = #[]
  frames_eq : m.frames = #[]
  opened_eq : m.cells.opened = []
  library : m.library.Sound

/-- A step of a machine, and what it does with the answer if the step asks for something. The answer may
be any. Nobody shows the output in between, and a machine that asks for something counts as well. -/
inductive Turns (m : Machine) : EStateM.Result Stop Machine Unit → Prop
  | step {result} : Exec.step m = result → Turns m result
  | answer {m1 r action result} :
      Exec.step m = .error (.request r) m1 → Session.Answers r action → action m1 = result → Turns m result

/-- The states that a machine goes through while it loads the object of a path. -/
inductive Loads (m : Machine) (path : String) : Machine → Prop
  | start {textOf : String → Except FileError String} {loading p}
      {m1} : m.library.load path m.nextSerial textOf = loading → loading.result = .ok p →
      construction p (m.afterLoading loading) = .ok () m1 → Loads m path m1
  | turn {m1 m2 : Machine} : Loads m path m1 → m1.Turns (.ok () m2) → Loads m path m2

theorem Turns.session {result} (h : m.Turns result) (hresult : ∀ r m', result ≠ .error (.request r) m') :
    Session.Turn m result := by
  cases h with
  | step heq => exact .step heq hresult
  | @answer m1 _ _ _ hasked haction heq => exact @Session.Turn.answer _ _ _ m1.output _ _ hasked haction heq

/-- The states of a machine that loads an object are among those that a session comes to. -/
theorem Loads.reached (h : m.Loads path m1) (hm : Session.Reached ⟨.idle, m⟩) :
    Session.Reached ⟨.construction, m1⟩ := by
  induction h with
  | start hload hresult hstart => exact hm.leads (.single (.construction hload hresult hstart))
  | turn _ hturn ih => exact ih.leads (.single (.turn nofun (hturn.session fun _ _ => nofun)))

/-- Between two runs a session is at rest. -/
theorem AtRest.of_reached (h : Session.Reached ⟨.idle, m⟩) : m.AtRest := by
  have hidle := (h.orderly .some).idle rfl
  exact ⟨hidle.stack_eq, hidle.frames_eq, hidle.opened_eq, hidle.sound.library⟩

def CallsHost (m : Machine) : Prop :=
  ∃ m1 f i, startProgram m = .ok () m1 ∧ m1.frames.back? = some f ∧
    f.code.instructionAt? f.position = some i ∧ m1.CallsNative f i

/-- What the construction of an object has to do with: nothing that was there before, and no code but that
of object units. -/
def sandbox (m : Machine) : Realm where
  object := m.objects.size
  cell := m.cells.all.size
  globals := False
  native _ := False
  routine _ r := ∃ path source unit, compileObject path source = .ok unit ∧ unit.Within r
  closure _ := True

theorem lawful_sandbox (m : Machine) : m.sandbox.Lawful where
  grows _ h := h
  enrolled hcompiled _ := ⟨_, _, _, hcompiled, .self⟩
  nested := by
    rintro _ r q index ⟨path, source, unit, hcompiled, hwithin⟩ hq
    exact ⟨path, source, unit, hcompiled, hwithin.trans (.inside hq .self)⟩
  layout := by
    rintro _ r ⟨path, source, unit, hcompiled, hwithin⟩
    exact verified_of_compileObject hcompiled r hwithin
  silent := by
    rintro _ r offset i ⟨path, source, unit, hcompiled, hwithin⟩ hat hglobal
    have hsilent := (makes_of_compileObject hcompiled).silent _ hwithin _ _ hat
    rw [hsilent] at hglobal
    cases hglobal
  bare _ _ := trivial

theorem AtRest.inside (h : m.AtRest) : m.Inside m.sandbox where
  stack v hv := by
    rw [h.stack_eq] at hv
    exact absurd hv (Array.not_mem_empty v)
  globals hglobals := hglobals.elim
  objects o object ho hobject := by
    have hlt := (Array.getElem?_eq_some_iff.mp hobject).1
    exact absurd ho (Nat.not_le.mpr hlt)
  cells id v hid hv := by
    have hlt := (Array.getElem?_eq_some_iff.mp hv).1
    exact absurd hid (Nat.not_le.mpr hlt)
  opened slot id hmem := by
    rw [h.opened_eq] at hmem
    cases hmem
  frames f hf := by
    rw [h.frames_eq] at hf
    exact absurd hf (Array.not_mem_empty f)
  object_le := Nat.le_refl _
  cell_le := Nat.le_refl _
  programs key p hp := by
    obtain ⟨path, source, hcompiled⟩ := h.library key p hp
    exact ⟨⟨path, source, p.routine, hcompiled, .self⟩, (isUnit_of_compileObject hcompiled).upvalueCount_eq⟩

/-! ### What is outside stays as it is -/

def Outwardly (m m' : Machine) : Prop := m'.globals = m.globals ∧ m'.output = m.output

theorem blind_outwardly : Blind Outwardly where
  refl _ := ⟨rfl, rfl⟩
  trans h h' := ⟨h'.1.trans h.1, h'.2.trans h.2⟩
  stack _ _ := ⟨rfl, rfl⟩
  frames _ _ := ⟨rfl, rfl⟩
  nextSerial _ _ := ⟨rfl, rfl⟩
  events _ _ := ⟨rfl, rfl⟩
  library _ _ _ := ⟨rfl, rfl⟩

/-- A machine that was loading an object all the time since it was at rest. -/
structure Sandboxed (m m' : Machine) : Prop where
  inside : m'.Inside m.sandbox
  outwardly : m.Outwardly m'

theorem Inside.not_callsNative (h : m1.Inside m.sandbox) : ¬ m1.CallsNative f i := by
  intro hcalls
  cases i with
  | call arguments =>
    obtain ⟨n, hn⟩ := hcalls
    have hcallee := h.slot (m1.stack.size - 1 - arguments)
    rw [hn] at hcallee
    exact hcallee
  | invoke name arguments =>
    obtain ⟨o, n, ho, hn⟩ := hcalls
    have hreceiver := h.slot (m1.stack.size - 1 - arguments)
    rw [ho] at hreceiver
    exact h.property? hreceiver hn
  | _ => exact hcalls

theorem Inside.not_callsHost (h : m1.Inside m.sandbox) : ¬ m1.CallsHost := by
  rintro ⟨m2, f, i, hstart, _, _, hcalls⟩
  exact ((StaysIn.startProgram m.lawful_sandbox h).ok hstart).not_callsNative hcalls

/-- However an action ends, the machine is still in the sandbox. -/
def StaysSandboxed (m m1 : Machine) (x : Exec Unit) : Prop :=
  x.Gives m1 (fun _ m2 => m.Sandboxed m2) fun stop m2 => m.Sandboxed m2 ∧ stop.Needed m2

theorem Outwardly.staysSandboxed (h : m.Outwardly m1) {x : Exec Unit} (hinside : StaysIn m.sandbox m1 x)
    (hkeeps : KeepsFrom Outwardly m1 x) : m.StaysSandboxed m1 x := by
  apply (hinside.and hkeeps).mono
  · rintro _ m2 ⟨hinside, houtwardly⟩
    exact ⟨hinside, blind_outwardly.trans h houtwardly⟩
  · rintro _ m2 ⟨hinside, houtwardly, hneeded⟩
    exact ⟨⟨hinside, blind_outwardly.trans h houtwardly⟩, hneeded⟩

theorem Sandboxed.startProgram (h : m.Sandboxed m1) : m.StaysSandboxed m1 Exec.startProgram :=
  h.outwardly.staysSandboxed (.startProgram m.lawful_sandbox h.inside) (blind_outwardly.startProgram m1)

theorem Sandboxed.execute (h : m.Sandboxed m1) (hback : m1.frames.back? = some f) (hat : f.code.At f.position i) :
    m.StaysSandboxed (m1.goTo (f.position + i.size)) (Exec.execute f (f.position + i.size) i) := by
  have hgone := StaysIn.execute m.lawful_sandbox h.inside hback hat (.of_forall fun _ => trivial)
  have hroutine := (h.inside.frames f (Array.mem_of_back? hback)).1.routine
  have hkeeps : KeepsFrom Outwardly (m1.goTo (f.position + i.size))
      (Exec.execute f (f.position + i.size) i) := by
    refine blind_outwardly.execute (fun _ _ => ⟨rfl, rfl⟩) (fun _ _ => ⟨rfl, rfl⟩) (.inr fun name => ⟨?_, ?_⟩)
      (.inr h.inside.not_callsNative)
    · rintro rfl
      exact m.lawful_sandbox.silent hroutine hat rfl
    · rintro rfl
      exact m.lawful_sandbox.silent hroutine hat rfl
  have houtwardly : m.Outwardly (m1.goTo (f.position + i.size)) := h.outwardly
  exact houtwardly.staysSandboxed hgone hkeeps

theorem Sandboxed.step (h : m.Sandboxed m1) : m.StaysSandboxed m1 Exec.step := by
  apply h.inside.gives_step m.lawful_sandbox
  apply h.startProgram.mono
  · intro _ m2 h2 _
    refine ⟨fun _ => ⟨h2, trivial⟩, fun f i hback hat events => ?_⟩
    have hnoted : m.Sandboxed { m2 with events } := ⟨h2.inside.noted events, h2.outwardly⟩
    exact hnoted.execute hback hat
  · exact fun _ _ hstop => hstop

theorem Sandboxed.answer (h : m.Sandboxed m1) {r : Request}
    (haction : Session.Answers r action) (hneeded : (Stop.request r).Needed m1) : m.StaysSandboxed m1 action :=
  h.outwardly.staysSandboxed (.answer m.lawful_sandbox h.inside haction hneeded)
    (blind_outwardly.answer haction hneeded m1.output)

/-- The library may compile something, but that is no reason to change anything else. -/
theorem AtRest.afterLoading (h : m.AtRest) (hload : m.library.load path m.nextSerial textOf = loading) :
    m.Sandboxed (m.afterLoading loading) :=
  ⟨h.inside.afterLoading m.lawful_sandbox ((Library.brings_load hload).stays m.lawful_sandbox h.inside.programs),
    rfl, rfl⟩

theorem AtRest.construction (h : m.AtRest) (hload : m.library.load path m.nextSerial textOf = loading)
    (hresult : loading.result = .ok p) : m.StaysSandboxed (m.afterLoading loading) (Exec.construction p) := by
  have hp := ((Library.brings_load hload).stays m.lawful_sandbox h.inside.programs).result p hresult
  have hloaded := h.afterLoading hload
  exact hloaded.outwardly.staysSandboxed (.construction m.lawful_sandbox hloaded.inside hp)
    (blind_outwardly.construction p _)

theorem Sandboxed.turn (h : m.Sandboxed m1) {result : EStateM.Result Stop Machine Unit} (hturn : m1.Turns result) :
    (∀ m2, result = .ok () m2 → m.Sandboxed m2) ∧ ∀ stop m2, result = .error stop m2 → m.Sandboxed m2 := by
  cases hturn with
  | step heq =>
    exact ⟨fun m2 hresult => h.step.ok (heq.trans hresult),
      fun stop m2 hresult => (h.step.error (heq.trans hresult)).1⟩
  | answer hasked haction heq =>
    obtain ⟨h2, hneeded⟩ := h.step.error hasked
    have hanswer := h2.answer haction hneeded
    exact ⟨fun m2 hresult => hanswer.ok (heq.trans hresult),
      fun stop m2 hresult => (hanswer.error (heq.trans hresult)).1⟩

theorem Loads.sandboxed (hload : m.Loads path m1) (h : m.AtRest) : m.Sandboxed m1 := by
  induction hload with
  | start hload hresult hstart => exact (h.construction hload hresult).ok hstart
  | turn _ hturn ih => exact (ih.turn hturn).1 _ rfl

/-! ### Runs -/

theorem Sandboxed.steps (h : m.Sandboxed m1) (n : Nat) : m.StaysSandboxed m1 (Exec.steps n) := by
  induction n generalizing m1 with
  | zero => exact h
  | succ n ih => exact (gives_bind _ _).mpr (h.step.mono (fun _ _ => ih) fun _ _ hstop => hstop)

/-- A host that leaves the output with the machine gets back a machine in the sandbox, even if the run was given
up. -/
theorem Sandboxed.drive (hrelay : ∀ m, host.relay m = m) (fuel : Nat) (h1 : m.Sandboxed m1)
    (h : m.StaysSandboxed m1 action) : m.Sandboxed (host.drive fuel action m1).2 := by
  induction fuel generalizing action m1 with
  | zero => exact h1
  | succ fuel ih =>
    have hsteps : m.StaysSandboxed m1 (action *> Exec.steps 1000) :=
      (gives_bind _ _).mpr (h.mono (fun _ _ h2 => h2.steps 1000) fun _ _ hstop => hstop)
    rw [Host.drive]
    cases heq : (action *> Exec.steps 1000) m1 with
    | ok _ m2 =>
      have h2 : m.Sandboxed (host.relay m2) := (hrelay m2).symm ▸ hsteps.ok heq
      exact ih h2 h2
    | error stop m2 =>
      obtain ⟨h2, hneeded⟩ := hsteps.error heq
      rw [← hrelay m2] at h2 hneeded
      cases stop with
      | finished v | fault f => exact h2
      | request r => exact ih h2 (h2.answer (Session.answers_answer host r) hneeded)

theorem AtRest.outwardly_loadObject (h : m.AtRest) (hrelay : ∀ m, host.relay m = m) (fuel : Nat) (path : String) :
    m.Outwardly (m.loadObject host fuel path).2 := by
  generalize hload : m.library.load path m.nextSerial host.textOf = loading
  cases hresult : loading.result with
  | error e =>
    rw [Session.loadObject_eq_error fuel hload hresult]
    exact (h.afterLoading hload).outwardly
  | ok p =>
    rw [Session.loadObject_eq fuel hload hresult]
    have hdriven := ((h.afterLoading hload).drive hrelay fuel (h.construction hload hresult)).outwardly
    unfold Host.run
    generalize host.drive fuel (Exec.construction p) (m.afterLoading loading) = ended at hdriven
    obtain ⟨ending, m2⟩ := ended
    cases ending <;> exact hdriven

theorem Loads.steps (h : m.Loads path m1) (n : Nat) :
    (Exec.steps n).Gives m1 (fun _ m2 => m.Loads path m2) fun _ _ => True := by
  induction n generalizing m1 with
  | zero => exact h
  | succ n ih =>
    exact (gives_bind _ _).mpr (Gives.self.mono (fun _ m2 hstep => ih (h.turn (.step hstep))) fun _ _ _ => trivial)

theorem loads_of_steps
    {n : Nat} (hload : m.library.load path m.nextSerial textOf = loading) (hresult : loading.result = .ok p)
    (hsteps : (Exec.construction p *> Exec.steps n) (m.afterLoading loading) = .ok () m1) : m.Loads path m1 := by
  have hgives : (Exec.construction p *> Exec.steps n).Gives (m.afterLoading loading)
      (fun _ m2 => m.Loads path m2) fun _ _ => True :=
    (gives_bind _ _).mpr (Gives.self.mono (fun _ m2 hstart => (Loads.start hload hresult hstart).steps n)
      fun _ _ _ => trivial)
  exact hgives.ok hsteps

end Machine

/-- Loading an object is sandboxed: at every moment of it, and when it is over, the global variables and
the output are what they were, and no function of the host is ever called. -/
theorem Machine.loadObject_sandboxed (h : m.AtRest) (path : String) :
    (∀ m1, m.Loads path m1 → m1.globals = m.globals ∧ m1.output = m.output ∧ ¬ m1.CallsHost ∧
      ∀ stop m2, m1.Turns (.error stop m2) → m2.globals = m.globals ∧ m2.output = m.output) ∧
    ∀ (host : Host Id) (fuel : Nat), (∀ m, host.relay m = m) →
      (m.loadObject host fuel path).2.globals = m.globals ∧
        (m.loadObject host fuel path).2.output = m.output := by
  constructor
  · intro m1 hloads
    have h1 := hloads.sandboxed h
    refine ⟨h1.outwardly.1, h1.outwardly.2, h1.inside.not_callsHost, fun stop m2 hturn => ?_⟩
    exact ((h1.turn hturn).2 stop m2 rfl).outwardly
  · exact fun host fuel hrelay => h.outwardly_loadObject hrelay fuel path

set_option synthInstance.maxSize 100000 in
/-- The initializer of a field calls a function that calls something with the name of a function of the
host. What comes of the request to the library is left open. -/
theorem exists_failing_initializer (source : ObjectSource) (loading : Library.Loading) :
    ∃ r, compileObject "/a" "int x=(function(){return print(true);})();" = .ok r ∧
      ∃ m1, (construction ⟨0, r⟩ *> steps 5) ((Session.start {} source "").machine.afterLoading loading) = .ok () m1 ∧
      ∃ stop m2, step m1 = .error stop m2 ∧ stop = .fault (.undefinedProperty "/a" "print") :=
  Computed.intro _ (by cbv)

/-- The fault of such an initializer, where the function of the host is a global variable. -/
theorem Machine.loadObject_sandboxed_initializer : ∃ (m m1 m2 : Machine) (object : String), m.AtRest ∧
      m.globals["print"]? = some (.native ⟨"print", .atMost 1, .print ""⟩) ∧ m.Loads "a" m1 ∧
      ¬ m1.CallsHost ∧
      m1.Turns (.error (.fault (.undefinedProperty object "print")) m2) ∧
      m2.globals = m.globals ∧ m2.output = m.output := by
  obtain ⟨source, loading, hloading, hresult⟩ :=
    Library.exists_loading_of_text "a" "int x=(function(){return print(true);})();" "/a" (by cbv)
  obtain ⟨r, hr, m1, hsteps, _, m2, hstep, rfl⟩ := exists_failing_initializer source loading
  have hrest : (Session.start {} source "").machine.AtRest := .of_reached (Session.reached_start source)
  have hloads : (Session.start {} source "").machine.Loads "a" m1 := loads_of_steps hloading (hresult r hr) hsteps
  have hturn := Turns.step hstep
  obtain ⟨_, _, hhost, hstop⟩ := (loadObject_sandboxed hrest "a").1 m1 hloads
  obtain ⟨hkept, hsilent⟩ := hstop _ _ hturn
  refine ⟨_, m1, m2, _, hrest, ?_, hloads, hhost, hturn, hkept, hsilent⟩
  simp [Session.start, Machine.start, Native.standard, defineNative, define, Std.HashMap.getElem_insert]

end Mudscript
