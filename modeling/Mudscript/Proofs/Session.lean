import Mudscript.Machine.Start
import Mudscript.Proofs.Effects

/-!
# Sessions

A session is all that a machine goes through from its start on: scripts are run and objects are
loaded, in any order and with any source texts, and what one of them leaves behind the next one finds.
A session is seen turn by turn. A turn is one step of the machine, together with the answer if the
step asked its host for something, and the answer may be any.

The turns are finer than the functions that run programs, which return when a run is over. The last
part ties the two together: whatever a host does, the machine it gets back from a run is one the
session comes to.
-/

namespace Mudscript

variable {p : Program} {fresh : Prop} {r : Routine} {name source : String}

variable {action : Exec Unit} {host : Host Id} {loading : Library.Loading} {path : String}

/-- What a machine is busy with: nothing, a script, or an object that was asked for from outside. -/
inductive Activity
  | idle
  | script
  | construction

structure Session where
  activity : Activity
  machine : Machine

/-- Calls a program, whose object is the result of the run. -/
def Exec.construction (p : Program) : Exec Unit := do
  push (.program p)
  callProgram ((← get).stack.size - 1)

def Machine.afterLoading (m : Machine) (loading : Library.Loading) : Machine :=
  { m with
    library := loading.library
    events := m.events ++ loading.events
    nextSerial := m.nextSerial + 1 }

/-! ### Requests to the library -/

namespace Library

variable {l : Library} {key path : String} {serial : Nat} {textOf : String → Except FileError String}

/-- What can come of a request for the program of a key: none, the one that the library has, or a new one, which it
keeps. -/
inductive Loading.Comes (l : Library) (key : String) (serial : Nat) (fresh : Prop) : Loading → Prop
  | failed {e events} : Comes l key serial fresh ⟨.error e, l, events⟩
  | had {p events} : l.programs[key]? = some p → Comes l key serial fresh ⟨.ok p, l, events⟩
  | compiled {text r events} : fresh → compileObject key text = .ok r → Comes l key serial fresh ⟨.ok ⟨serial, r⟩,
        { l with programs := l.programs.insert key ⟨serial, r⟩, compiles := l.compiles + 1 }, events⟩

abbrev Brings (l : Library) (path : String) (serial : Nat) (loading : Loading) : Prop :=
  loading.Comes l (l.key path) serial (l.programs[l.key path]? = none)

theorem comes_enroll (hfresh : fresh) (source : Except FileError String) :
    (l.enroll key serial source).Comes l key serial fresh := by
  unfold enroll
  cases source with
  | error e => exact .failed
  | ok text =>
    dsimp only
    cases hcompiled : compileObject key text with
    | error errors => exact .failed
    | ok r => exact .compiled hfresh hcompiled

theorem ask_cases (l : Library) (path : String) (serial : Nat) : match l.ask path serial with
    | .loaded loading => l.Brings path serial loading
    | .needsFile key _ => key = l.key path ∧ l.programs[key]? = none := by
  unfold ask
  dsimp only
  cases hp : l.programs[l.key path]? with
  | some p => exact .had hp
  | none =>
    cases l.origin (l.key path) with
    | text source => exact comes_enroll hp source
    | file file => exact ⟨rfl, hp⟩

theorem brings_load (hload : l.load path serial textOf = loading) : l.Brings path serial loading := by
  have hcases := l.ask_cases path serial
  rw [← hload, load]
  generalize l.ask path serial = answer at hcases
  cases answer with
  | loaded loading => exact hcases
  | needsFile key file =>
    obtain ⟨rfl, hnew⟩ := hcases
    exact comes_enroll hnew _

theorem Loading.Comes.kept (h : loading.Comes l key serial fresh)
    (hresult : loading.result = .ok p) : loading.library.programs[key]? = some p := by
  cases h with
  | failed => cases hresult
  | had hp =>
    cases hresult
    exact hp
  | compiled =>
    cases hresult
    exact Std.HashMap.getElem?_insert_self

theorem ask_of_memory {texts} (hsource : l.source = .memory texts) (path : String)
    (serial : Nat) : l.ask path serial = .loaded (l.load path serial textOf) := by
  have hloaded : ∃ loading, l.ask path serial = .loaded loading := by
    unfold ask origin
    rw [hsource]
    dsimp only
    cases l.programs[l.key path]? with
    | some p => exact ⟨_, rfl⟩
    | none => cases texts[l.key path]? <;> exact ⟨_, rfl⟩
  obtain ⟨loading, hask⟩ := hloaded
  rw [load, hask]

theorem result_of_text {text : String} (hkey : ObjectPath.normalize path "" = key)
    (hr : compileObject key text = .ok r) (serial : Nat) (textOf : String → Except FileError String) :
    (load { source := .ofTexts [(path, text)], extension := "" } path serial textOf).result = .ok ⟨serial, r⟩ := by
  simp [load, ask, origin, Library.key, enroll, ObjectSource.ofTexts, hkey, hr]

theorem exists_loading_of_text (path text key : String) (hkey : ObjectPath.normalize path "" = key) :
    ∃ source loading, load { source, extension := "" } path 0 (fun file => .error (.noObject file)) = loading ∧
      ∀ r, compileObject key text = .ok r → loading.result = .ok ⟨0, r⟩ :=
  ⟨.ofTexts [(path, text)], _, rfl, fun _ hr => result_of_text hkey hr 0 _⟩

end Library

namespace Exec

variable {m : Machine} {caller : Option String} {Q : Unit → Machine → Prop} {E : Stop → Machine → Prop}

theorem gives_construction_iff : (construction p).Gives m Q E ↔
    (callClosure ⟨m.nextSerial, p.routine, #[]⟩ 0).Gives (m.opening m.stack p) Q E := by
  unfold construction
  rw [gives_bind, gives_push, gives_bind, gives_get, gives_callProgram (p := p) (by simp), Machine.withStack_stack,
    Array.size_push, Nat.add_sub_cancel, setIfInBounds_push]
  rfl

theorem construction_cases (p : Program) : (construction p).Gives m (fun _ m' => ∃ g, m'.frames = m.frames.push g)
    fun stop m' => (∃ f, stop = .fault f) ∧ m'.frames = m.frames :=
  gives_construction_iff.mpr (gives_callClosure ⟨⟨_, rfl⟩, rfl⟩ ⟨⟨_, rfl⟩, rfl⟩ fun _ _ => ⟨_, rfl⟩)

theorem gives_receive (hok : ∀ p, loading.result = .ok p →
      Q () ((m.afterLoading loading).withStack (m.stack.push (.program p))))
    (herror : ∀ e, E (.fault (.load e)) (m.afterLoading loading))
    (hnative : ∀ name text, E (.fault (.native name text)) (m.afterLoading loading)) :
    (receive caller loading).Gives m Q E := by
  unfold receive
  rw [gives_bind, gives_modify]
  cases hresult : loading.result with
  | ok p => exact hok p hresult
  | error e =>
    cases caller with
    | none => exact herror e
    | some name => exact hnative name _

theorem gives_load
    (hloaded : ∀ loading, m.library.Brings path m.nextSerial loading → (receive caller loading).Gives m Q E)
    (hneeds : ∀ file, m.library.programs[m.library.key path]? = none →
      E (.request (.source (m.library.key path) file caller)) m) : (load caller path).Gives m Q E := by
  have hcases := m.library.ask_cases path m.nextSerial
  unfold load
  rw [gives_bind, gives_get, gives_bind, gives_get]
  generalize m.library.ask path m.nextSerial = answer at hcases
  cases answer with
  | loaded loading => exact hloaded loading hcases
  | needsFile key file =>
    obtain ⟨rfl, hnew⟩ := hcases
    exact hneeds file hnew

end Exec

namespace Session

def start (settings : Settings) (source : ObjectSource) (extension : String) : Session :=
  ⟨.idle, .start settings { source, extension }⟩

/-- What a machine may do with the answer to a request. -/
inductive Answers : Request → Exec Unit → Prop
  | source {key file caller} (text : Except FileError String) :
      Answers (.source key file caller) (Exec.receiveSource caller key text)
  | time (n : Number) : Answers .time (Exec.push (.number n))

/-- A step of a machine, with the answer to what it asks for. -/
inductive Turn (m : Machine) : EStateM.Result Stop Machine Unit → Prop
  | step {result} : Exec.step m = result → (∀ r m', result ≠ .error (.request r) m') → Turn m result
  | answer {r m' output action result} : Exec.step m = .error (.request r) m' →
      Answers r action → action { m' with output } = result → Turn m result

/-- One session follows another. A fault resets the machine, and what was printed and noted may be
shown at any time. -/
inductive Next : Session → Session → Prop
  | script {m m' name source r} : compileScript name source = .ok r →
      Exec.enter r m = .ok () m' → Next ⟨.idle, m⟩ ⟨.script, m'⟩
  | construction {m m' path} {textOf : String → Except FileError String} {loading p} :
      m.library.load path m.nextSerial textOf = loading → loading.result = .ok p →
      Exec.construction p (m.afterLoading loading) = .ok () m' → Next ⟨.idle, m⟩ ⟨.construction, m'⟩
  | notStarted {m m' path} {textOf : String → Except FileError String} {loading p} {f} :
      m.library.load path m.nextSerial textOf = loading → loading.result = .ok p →
      Exec.construction p (m.afterLoading loading) = .error (.fault f) m' → Next ⟨.idle, m⟩ ⟨.idle, m'.reset⟩
  | notLoaded {m path} {textOf : String → Except FileError String} {loading e} :
      m.library.load path m.nextSerial textOf = loading → loading.result = .error e →
      Next ⟨.idle, m⟩ ⟨.idle, m.afterLoading loading⟩
  | native {m} (n : Native) : Next ⟨.idle, m⟩ ⟨.idle, m.defineNative n⟩
  | turn {a m m'} : a ≠ .idle → Turn m (.ok () m') → Next ⟨a, m⟩ ⟨a, m'⟩
  | finish {a m m' v} : a ≠ .idle → Turn m (.error (.finished v) m') → Next ⟨a, m⟩ ⟨.idle, m'⟩
  | fault {a m m' f} : a ≠ .idle → Turn m (.error (.fault f) m') → Next ⟨a, m⟩ ⟨.idle, m'.reset⟩
  | shown {a m} (output : String) (events : Array Event) : Next ⟨a, m⟩ ⟨a, { m with output, events }⟩

def Leads : Session → Session → Prop := Relation.ReflTransGen Next

def Reached (s : Session) : Prop := ∃ settings source extension, Leads (start settings source extension) s

theorem Reached.leads {s s' : Session} (h : s.Reached) (h' : s.Leads s') : s'.Reached := by
  obtain ⟨settings, source, extension, h⟩ := h
  exact ⟨settings, source, extension, h.trans h'⟩

/-- Whatever holds of new machines and stays true from each session to the next holds of all
sessions. -/
theorem Reached.induction {P : Session → Prop}
    (hstart : ∀ settings source extension, P (start settings source extension))
    (hnext : ∀ s s', P s → Next s s' → P s') {s : Session} (h : s.Reached) : P s := by
  obtain ⟨settings, source, extension, h⟩ := h
  induction h with
  | refl => exact hstart settings source extension
  | tail _ h ih => exact hnext _ _ ih h

/-! ### Runs -/

/-- What a host does with the machine it relays is to show the output. -/
def RelaysOutput (host : Host Id) : Prop := ∀ m, ∃ output, host.relay m = { m with output }

/-- What is true in the course of a run: `I` as long as it goes on, `F` when it has finished with a
value, and `X` when it has failed. One turn after the other, and what is shown does not matter. -/
structure Course (I : Machine → Prop) (F : Value → Machine → Prop) (X : Fault → Machine → Prop) :
    Prop where
  goes : ∀ m m', I m → Turn m (.ok () m') → I m'
  finishes : ∀ m m' v, I m → Turn m (.error (.finished v) m') → F v m'
  fails : ∀ m m' f, I m → Turn m (.error (.fault f) m') → X f m'
  shown : ∀ (m : Machine) output, I m → I { m with output }
  shown_finished : ∀ (m : Machine) output v, F v m → F v { m with output }
  shown_failed : ∀ (m : Machine) output f, X f m → X f { m with output }

variable {I : Machine → Prop} {F : Value → Machine → Prop} {X : Fault → Machine → Prop} {m : Machine}

def Stops (I : Machine → Prop) (F : Value → Machine → Prop) (X : Fault → Machine → Prop) :
    Stop → Machine → Prop
  | .finished v, m => F v m
  | .fault f, m => X f m
  | .request r, m => ∃ m0, I m0 ∧ Exec.step m0 = .error (.request r) m

theorem Course.step (hc : Course I F X) (h : I m) : Exec.step.Gives m (fun _ => I) (Stops I F X) := by
  unfold Exec.Gives
  cases hstep : Exec.step m with
  | ok _ m' => exact hc.goes m m' h (.step hstep (fun _ _ => nofun))
  | error stop m' =>
    cases stop with
    | finished v => exact hc.finishes m m' v h (.step hstep (fun _ _ => nofun))
    | fault f => exact hc.fails m m' f h (.step hstep (fun _ _ => nofun))
    | request r => exact ⟨m, h, hstep⟩

theorem Course.steps (hc : Course I F X) (n : Nat) (h : I m) : (Exec.steps n).Gives m (fun _ => I) (Stops I F X) := by
  induction n generalizing m with
  | zero => exact h
  | succ n ih => exact (Exec.gives_bind _ _).mpr ((hc.step h).mono (fun _ _ => ih) fun _ _ h => h)

theorem receive_gives (caller : Option String) (loading : Library.Loading) :
    (Exec.receive caller loading).Gives m (fun _ _ => True) fun stop _ => ∃ f, stop = .fault f :=
  Exec.gives_receive (fun _ _ => trivial) (fun _ => ⟨_, rfl⟩) fun _ _ => ⟨_, rfl⟩

theorem Answers.gives {r : Request} (h : Answers r action) :
    action.Gives m (fun _ _ => True) fun stop _ => ∃ f, stop = .fault f := by
  cases h with
  | source text => exact receive_gives _ _
  | time n => trivial

theorem Course.answer (hc : Course I F X) {m0 : Machine} {r : Request}
    (output : String) (h : I m0) (hstep : Exec.step m0 = .error (.request r) m)
    (haction : Answers r action) : action.Gives { m with output } (fun _ => I) (Stops I F X) := by
  have hgives := haction.gives (m := { m with output })
  unfold Exec.Gives
  cases heq : action { m with output } with
  | ok _ m' => exact hc.goes m0 m' h (.answer hstep haction heq)
  | error stop m' =>
    obtain ⟨f, rfl⟩ := hgives.error heq
    exact hc.fails m0 m' f h (.answer hstep haction heq)

theorem answers_answer (host : Host Id) (r : Request) : Answers r (host.answer r) := by
  cases r with
  | source key file caller => exact .source (host.textOf file)
  | time => exact .time host.time

def Ends (F : Value → Machine → Prop) (X : Fault → Machine → Prop) : Ending × Machine → Prop
  | (.finished v, m) => F v m
  | (.failed f, m) => X f m
  | (.exhausted, _) => True

theorem Course.after (hc : Course I F X) (n : Nat) (h : action.Gives m (fun _ => I) (Stops I F X)) :
    (action *> Exec.steps n).Gives m (fun _ => I) (Stops I F X) :=
  (Exec.gives_bind _ _).mpr (h.mono (fun _ _ => hc.steps n) fun _ _ h => h)

theorem Course.drive (hc : Course I F X) (hrelay : RelaysOutput host) (fuel : Nat)
    (h : action.Gives m (fun _ => I) (Stops I F X)) : Ends F X (host.drive fuel action m) := by
  induction fuel generalizing action m with
  | zero => trivial
  | succ fuel ih =>
    have hsteps := hc.after 1000 h
    rw [Host.drive]
    cases heq : (action *> Exec.steps 1000) m with
    | ok _ m' =>
      obtain ⟨output, houtput⟩ := hrelay m'
      have hshown : I (host.relay m') := houtput ▸ hc.shown m' output (hsteps.ok heq)
      exact ih hshown
    | error stop m' =>
      obtain ⟨output, houtput⟩ := hrelay m'
      have hstop := hsteps.error heq
      cases stop with
      | finished v =>
        show F v (host.relay m')
        rw [houtput]
        exact hc.shown_finished m' output v hstop
      | fault f =>
        show X f (host.relay m')
        rw [houtput]
        exact hc.shown_failed m' output f hstop
      | request r =>
        obtain ⟨m0, hm0, hstep⟩ := hstop
        show Ends F X (host.drive fuel (host.answer r) (host.relay m'))
        rw [houtput]
        exact ih (hc.answer output hm0 hstep (answers_answer host r))

theorem Course.run (hc : Course I F X) (hrelay : RelaysOutput host) (fuel : Nat)
    (h : action.Gives m (fun _ => I) (Stops I F X)) : match (host.run fuel action m).1 with
    | .ok v => F v (host.run fuel action m).2
    | .error (.runtime f trace) => ∃ m', X f m' ∧ trace = m'.backtrace ∧ (host.run fuel action m).2 = m'.reset
    | .error failure => failure = .exhausted := by
  have hends := hc.drive hrelay fuel h
  unfold Host.run
  generalize host.drive fuel action m = ended at hends
  obtain ⟨ending, m'⟩ := ended
  cases ending with
  | finished v => exact hends
  | failed f => exact ⟨m', hends, rfl, rfl⟩
  | exhausted => rfl

/-! ### Runs of a session -/

variable {s : Session} {a : Activity}

theorem course_leads (s : Session) (ha : a ≠ .idle) : Course (fun m => s.Leads ⟨a, m⟩)
    (fun _ m => s.Leads ⟨.idle, m⟩) (fun _ m => s.Leads ⟨.idle, m.reset⟩) where
  goes _ _ h hturn := h.tail (.turn ha hturn)
  finishes _ _ _ h hturn := h.tail (.finish ha hturn)
  fails _ _ _ h hturn := h.tail (.fault ha hturn)
  shown m output h := h.tail (.shown output m.events)
  shown_finished m output _ h := h.tail (.shown output m.events)
  shown_failed m output _ h := h.tail (.shown output m.reset.events)

/-- What a session comes to when the machine does something. -/
def Follows (s : Session) (a : Activity) (action : Exec Unit) (m : Machine) : Prop :=
  action.Gives m (fun _ m' => s.Leads ⟨a, m'⟩) (Stops (fun m' => s.Leads ⟨a, m'⟩)
    (fun _ m' => s.Leads ⟨.idle, m'⟩) (fun _ m' => s.Leads ⟨.idle, m'.reset⟩))

theorem leads_run (hrelay : RelaysOutput host) (ha : a ≠ .idle) (fuel : Nat) (h : s.Follows a action m)
    (hfuel : ∀ f, (host.run fuel action m).1 = .error f → f ≠ .exhausted) :
    s.Leads ⟨.idle, (host.run fuel action m).2⟩ := by
  have hrun := (course_leads s ha).run hrelay fuel h
  split at hrun
  · exact hrun
  · obtain ⟨m', hm', _, heq⟩ := hrun
    rw [heq]
    exact hm'
  · rename_i heq
    exact absurd hrun (hfuel _ heq)

theorem follows_enter (hcompiled : compileScript name source = .ok r) : Follows ⟨.idle, m⟩ .script (Exec.enter r) m :=
  Relation.ReflTransGen.single (.script hcompiled rfl)

/-- The machine a script leaves behind, unless it was given up, is one the session comes to. -/
theorem Reached.interpret (hrelay : RelaysOutput host) (fuel : Nat)
    (h : Reached ⟨.idle, m⟩) (hcompiled : compileScript name source = .ok r)
    (hfuel : ∀ f, (m.interpret host fuel r).1 = .error f → f ≠ .exhausted) :
    Reached ⟨.idle, (m.interpret host fuel r).2⟩ := by
  have hscript : Activity.script ≠ .idle := nofun
  exact h.leads (leads_run hrelay hscript fuel (follows_enter hcompiled) hfuel)

theorem follows_construction {textOf}
    (hload : m.library.load path m.nextSerial textOf = loading) (hresult : loading.result = .ok p) :
    Follows ⟨.idle, m⟩ .construction (Exec.construction p) (m.afterLoading loading) := by
  unfold Follows Exec.Gives
  cases heq : Exec.construction p (m.afterLoading loading) with
  | ok _ m' => exact .single (.construction hload hresult heq)
  | error stop m' =>
    obtain ⟨⟨f, rfl⟩, _⟩ := (Exec.construction_cases p).error heq
    exact .single (.notStarted hload hresult heq)

/-! A session goes on for a number of steps, and starts with a script or an object. -/

section

variable {m' : Machine} {n : Nat}

theorem reached_start (source : ObjectSource) : Reached (start {} source "") := ⟨{}, source, "", .refl⟩

theorem Reached.step (h : Reached ⟨a, m⟩) (ha : a ≠ .idle) (hm : Exec.step m = .ok () m') : Reached ⟨a, m'⟩ :=
  h.leads (.single (.turn ha (.step hm fun _ _ => nofun)))

theorem Reached.steps (h : Reached ⟨a, m⟩) (ha : a ≠ .idle) (hm : Exec.steps n m = .ok () m') : Reached ⟨a, m'⟩ :=
  h.leads (((course_leads ⟨a, m⟩ ha).steps n .refl).ok hm)

theorem Reached.script (h : Reached ⟨.idle, m⟩)
    (hcompiled : compileScript name source = .ok r) (hm : (Exec.enter r *> Exec.steps n) m = .ok () m') :
    Reached ⟨.script, m'⟩ :=
  h.leads (((course_leads ⟨.idle, m⟩ (nofun : Activity.script ≠ .idle)).after n (follows_enter hcompiled)).ok hm)

theorem Reached.construction {textOf} (h : Reached ⟨.idle, m⟩)
    (hload : m.library.load path m.nextSerial textOf = loading) (hresult : loading.result = .ok p)
    (hm : (Exec.construction p *> Exec.steps n) (m.afterLoading loading) = .ok () m') : Reached ⟨.construction, m'⟩ :=
  h.leads (((course_leads ⟨.idle, m⟩ (nofun : Activity.construction ≠ .idle)).after n
    (follows_construction hload hresult)).ok hm)

end

def constructed : Except Failure Value → Except Failure ObjectId
  | .ok (.object o) => .ok o
  | .ok v => .error (.runtime (.programReturned v.type) [])
  | .error f => .error f

theorem load_eq (hloading : m.library.load path m.nextSerial host.textOf = loading) :
    m.load host path = (loading.result, m.afterLoading loading) := by
  rw [← hloading]
  unfold Machine.load Library.load
  cases m.library.ask path m.nextSerial <;> rfl

theorem loadObject_eq (fuel : Nat) (hloading : m.library.load path m.nextSerial host.textOf = loading)
    (hresult : loading.result = .ok p) : m.loadObject host fuel path =
      (constructed (host.run fuel (Exec.construction p) (m.afterLoading loading)).1,
        (host.run fuel (Exec.construction p) (m.afterLoading loading)).2) := by
  unfold Machine.loadObject
  rw [load_eq hloading, hresult]
  refine (pure_bind (m := Id) (Except.ok p, m.afterLoading loading) _).trans ?_
  show (host.run fuel (Exec.construction p) (m.afterLoading loading) >>= _ : Id _) = _
  generalize host.run fuel (Exec.construction p) (m.afterLoading loading) = ended
  obtain ⟨result, m'⟩ := ended
  cases result with
  | error f => rfl
  | ok v => cases v <;> rfl

theorem loadObject_eq_error {e : LoadError}
    (fuel : Nat) (hloading : m.library.load path m.nextSerial host.textOf = loading)
    (hresult : loading.result = .error e) :
    m.loadObject host fuel path = (.error (.load e), m.afterLoading loading) := by
  unfold Machine.loadObject
  rw [load_eq hloading, hresult]
  rfl

theorem Reached.loadObject (hrelay : RelaysOutput host) (fuel : Nat) (h : Reached ⟨.idle, m⟩)
    (hfuel : ∀ f, (m.loadObject host fuel path).1 = .error f → f ≠ .exhausted) :
    Reached ⟨.idle, (m.loadObject host fuel path).2⟩ := by
  obtain ⟨loading, hloading⟩ : ∃ loading, m.library.load path m.nextSerial host.textOf = loading :=
    ⟨_, rfl⟩
  cases hresult : loading.result with
  | error e =>
    rw [loadObject_eq_error fuel hloading hresult]
    exact h.leads (.single (.notLoaded hloading hresult))
  | ok p =>
    have hconstruction : Activity.construction ≠ .idle := nofun
    rw [loadObject_eq fuel hloading hresult] at hfuel ⊢
    refine h.leads (leads_run hrelay hconstruction fuel (follows_construction hloading hresult) fun f hf => ?_)
    exact hfuel f (by rw [hf]; rfl)

end Session

end Mudscript
