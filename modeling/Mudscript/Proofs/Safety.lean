import Mudscript.Proofs.Execution

/-!
# Safety

A session never gets into a state that its code does not expect. Whatever scripts are run and whatever
objects are loaded, at each step there is an instruction to execute, all that it refers to is there,
and it does not fail in a way that only bad code could make it fail.

The proof is an invariant: at each point of a session the machine has nothing to do, or it goes on with
a run, in good order in either case.
-/

namespace Mudscript

open Machine Exec

variable {loading : Library.Loading} {r : Routine} {s : Session} {name path source : String}

variable {past : Moment} {L : Layouts} {a : Activity} {m m' : Machine}

/-! ### Machines without work -/

namespace Machine

theorem Idle.congr (h : m.Idle past) (hstack : m'.stack = m.stack) (hframes : m'.frames = m.frames)
    (hcells : m'.cells = m.cells) (hsound : m'.Sound past) : m'.Idle past :=
  ⟨hsound, hframes.trans h.frames_eq, hstack.trans h.stack_eq, hcells ▸ h.opened_eq⟩

theorem Sound.reset (h : m.Sound past) : m.reset.Idle past := by
  have hc := h.cells.closeFrom 0 m.stack
  have hcleared : ((m.withCells (m.cells.closeFrom 0 m.stack)).withStack #[]).Sound past :=
    (h.closeFrom 0).withStack nofun
  have hsound : (((m.withCells (m.cells.closeFrom 0 m.stack)).withStack #[]).withFrames #[]).Sound past :=
    hcleared.withFrames nofun
  refine ⟨hsound.congr rfl rfl rfl rfl rfl hsound.library, rfl, rfl, ?_⟩
  exact List.eq_nil_iff_forall_not_mem.mpr fun ⟨slot, id⟩ hmem =>
    Nat.not_lt_zero _ ((hc.mem_iff slot id).mp hmem).2

theorem Idle.define (h : m.Idle past) (n : Native) : (m.defineNative n).Idle past :=
  h.congr rfl rfl rfl (h.sound.define n.name (v := .native n) trivial)

theorem Idle.shown (h : m.Idle past) (output : String) (events : Array Event) :
    ({ m with output, events } : Machine).Idle past :=
  h.congr rfl rfl rfl (h.sound.congr rfl rfl rfl rfl rfl h.sound.library)

theorem Running.shown (h : m.Running past L a) (output : String) (events : Array Event) :
    ({ m with output, events } : Machine).Running past L a := by
  rcases h with hready | ⟨m0, p, rfl, hp, hawaits⟩
  · exact .inl (hready.shown output events)
  · exact .inr ⟨{ m0 with output, events }, p, rfl, hp, hawaits.congr rfl rfl rfl
      (hawaits.sound.congr rfl rfl rfl rfl rfl hawaits.sound.library)⟩

theorem Idle.afterLoading (h : m.Idle past) (hloading : loading.Sound) :
    (m.afterLoading loading).Idle past := h.congr rfl rfl rfl (h.sound.afterLoading hloading)

theorem idle_start (settings : Settings) (source : ObjectSource) (extension : String) :
    (Machine.start settings { source, extension }).Idle {} := by
  have hempty : ({ settings, library := { source, extension } } : Machine).Idle {} := by
    refine ⟨⟨Cells.consistent_empty, .refl _, ?_, ?_, ?_, ?_, ?_, fun key p hp => ?_⟩, rfl, rfl, rfl⟩
    all_goals simp at *
  have hdefine : ∀ (ns : List Native) (m : Machine), m.Idle {} → (ns.foldl defineNative m).Idle {} := by
    intro ns
    induction ns with
    | nil => exact fun _ h => h
    | cons n ns ih => exact fun m h => ih _ (h.define n)
  exact hdefine _ _ hempty

theorem Idle.called {c : Closure} {kind} (h : m.Idle past) (hr : c.routine.IsCompiled)
    (hunit : c.routine.IsUnit kind) (hkind : a = .construction → kind = .object) (hc : c.Valid m.moment)
    (serial base : Nat) (hbase : base = 0) : (((m.withStack (m.stack.push (.closure c))).withSerial serial).withFrames
      (m.frames.push ⟨c, 0, base⟩)).Ready past L a := by
  have hlayout : ∃ σ, c.routine.Layout σ := hr.verified c.routine .self
  have hl := L.layout c.routine hlayout
  have hpushed := (h.sound.push (v := .closure c) hc).withSerial serial
  subst hbase
  obtain ⟨m', hm'⟩ : ∃ m', m' = ((m.withStack (m.stack.push (.closure c))).withSerial serial).withFrames
      (m.frames.push ⟨c, 0, 0⟩) := ⟨_, rfl⟩
  have hcalls : m'.calls = [⟨c, 0, 0⟩] := by
    rw [hm', calls, withFrames_frames, h.frames_eq]
    rfl
  have hsize : m'.stack.size = 1 := by
    rw [hm']
    show (m.stack.push (.closure c)).size = 1
    rw [h.stack_eq]
    rfl
  have hopened : ∀ slot id, (slot, id) ∉ m'.cells.opened := by
    intro slot id hmem
    rw [hm'] at hmem
    change (slot, id) ∈ m.cells.opened at hmem
    rw [h.opened_eq] at hmem
    cases hmem
  rw [← hm']
  obtain ⟨i, hi, _⟩ := hl.whole 0 .start hl.size_pos
  refine ⟨?_, Midway.arranged ⟨?_, ?_, fun slot id hmem => absurd hmem (hopened slot id), ?_, ?_⟩⟩
  · rw [hm']
    refine hpushed.withFrames fun f hf => .inr ?_
    rcases Array.mem_push.mp hf with hf | rfl
    · rw [h.frames_eq] at hf
      exact absurd hf (Array.not_mem_empty _)
    · refine ⟨hc, fun _ id hmem => hopened 0 id ?_⟩
      rw [hm']
      exact hmem
  · rw [hcalls, hsize]
    refine .outermost ⟨hlayout, ⟨i, .start, hl.size_pos, hi⟩, ?_⟩ rfl fun ha => hunit.kind_eq.trans (hkind ha)
    have hheight : (L.shape c.routine 0).height = c.routine.arity + 1 := hl.entry.height_eq
    show 1 = 0 + (L.shape c.routine 0).height
    rw [hheight, hunit.arity_eq]
  · intro f rest heq
    rw [hcalls] at heq
    cases heq
    rw [hsize]
    exact Nat.one_pos
  · intro f hf _ hposition
    rw [hcalls] at hf
    exact absurd (by rw [List.mem_singleton.mp hf]) hposition
  · intro f rest heq
    rw [hcalls] at heq
    cases heq
    rcases hl.entry.top_eq with hnone | heq
    · exact .inl hnone
    · exact .inl heq

end Machine

/-! ### The invariant -/

namespace Session

/-- A session in good order, some time after the cells of its machine were the given ones. -/
structure Orderly (past : Moment) (L : Layouts) (s : Session) : Prop where
  idle : s.activity = .idle → s.machine.Idle past
  running : s.activity ≠ .idle → s.machine.Running past L s.activity

theorem Orderly.of_idle (h : m.Idle past) : Orderly past L ⟨.idle, m⟩ := ⟨fun _ => h, fun ha => absurd rfl ha⟩

theorem Orderly.of_running (ha : a ≠ .idle) (h : m.Running past L a) : Orderly past L ⟨a, m⟩ :=
  ⟨fun heq => absurd heq ha, fun _ => h⟩

theorem gives_construction {textOf}
    {p : Program} (h : m.Idle past) (hload : m.library.load path m.nextSerial textOf = loading)
    (hresult : loading.result = .ok p) :
    (Exec.construction p).Gives (m.afterLoading loading) (fun _ m' => m'.Ready past L .construction)
      fun stop m' => ∃ f, stop = .fault f ∧ ¬ f.IsInternal ∧ m'.Sound past := by
  have hloading := h.sound.library.comes (Library.brings_load hload)
  obtain ⟨path, source, hp⟩ := hloading.result p hresult
  replace h := h.afterLoading hloading
  generalize m.afterLoading loading = m at h ⊢
  have hunit := isUnit_of_compileObject hp
  have hr : p.routine.IsCompiled := .inr ⟨path, source, hp⟩
  obtain ⟨c, hc⟩ : ∃ c, c = Closure.mk m.nextSerial p.routine #[] := ⟨_, rfl⟩
  have hvalid : c.Valid m.moment := hc ▸ Closure.valid_of_unit hr hunit _
  have hsound := (h.sound.push (v := .closure c) hvalid).withSerial (m.nextSerial + 1)
  rw [gives_construction_iff, opening, ← hc]
  refine gives_callClosure ⟨_, rfl, id, hsound⟩ ⟨_, rfl, id, hsound⟩ fun _ _ => ?_
  refine h.called (hc ▸ hr) (hc ▸ hunit) (fun _ => rfl) hvalid _ _ ?_
  show (m.stack.push (.closure c)).size - 0 - 1 = 0
  rw [h.stack_eq]
  rfl

theorem gives_enter (h : m.Idle past) (hr : compileScript name source = .ok r) :
    (Exec.enter r).Gives m (fun _ m' => m'.Ready past L .script) fun _ _ => False := by
  have hunit := isUnit_of_compileScript hr
  have hcompiled : r.IsCompiled := .inl ⟨name, source, hr⟩
  have hvalid : Closure.Valid m.moment ⟨m.nextSerial, r, #[]⟩ := Closure.valid_of_unit hcompiled hunit _
  have hscript : Activity.script = .construction → RoutineKind.script = .object := nofun
  have hready : (_ : Machine).Ready past L .script :=
    h.called hcompiled hunit hscript hvalid (m.nextSerial + 1) m.stack.size (by rw [h.stack_eq]; rfl)
  exact hready

theorem safe_answer {r : Request} {action : Exec Unit} (h : Halts past L a (.request r) m)
    (haction : Answers r action) (output : String) : action.Safe past L a { m with output } := by
  cases haction with
  | source text =>
    have hshown : ({ m with output } : Machine).Awaits past L a := Awaits.congr h rfl rfl rfl
      ((Awaits.sound h).congr rfl rfl rfl rfl rfl (Awaits.sound h).library)
    exact safe_receiveSource hshown _ _ text
  | time n =>
    have hbusy : m.Busy past L a 0 1 none := h
    have hshown : ({ m with output } : Machine).Busy past L a 0 1 none :=
      ⟨hbusy.sound.congr rfl rfl rfl rfl rfl hbusy.sound.library, hbusy.midway.congr rfl rfl rfl⟩
    exact .inl (hshown.goes trivial)

theorem Turn.safe {result} (hturn : Turn m result) (h : m.Running past L a) :
    (∀ m', result = .ok () m' → m'.Running past L a) ∧
      ∀ stop m', result = .error stop m' → (∀ r, stop ≠ .request r) → Halts past L a stop m' := by
  cases hturn with
  | step hstep _ =>
    refine ⟨fun m' heq => (safe_step h).ok (hstep.trans heq), fun stop m' heq _ => ?_⟩
    exact (safe_step h).error (hstep.trans heq)
  | answer hstep haction hresult =>
    have hsafe := safe_answer ((safe_step h).error hstep) haction
    exact ⟨fun m' heq => (hsafe _).ok (hresult.trans heq),
      fun stop m' heq _ => (hsafe _).error (hresult.trans heq)⟩

theorem orderly_start (L : Layouts) (settings : Settings) (source : ObjectSource) (extension : String) :
    (start settings source extension).Orderly {} L := .of_idle (idle_start settings source extension)

theorem Orderly.next {s' : Session} (h : s.Orderly past L) (hnext : Next s s') : s'.Orderly past L := by
  cases hnext with
  | script hcompiled henter =>
    exact .of_running nofun (.inl ((gives_enter (h.idle rfl) hcompiled).ok henter))
  | construction hload hresult hstart =>
    exact .of_running nofun (.inl ((gives_construction (h.idle rfl) hload hresult).ok hstart))
  | notStarted hload hresult hstart =>
    obtain ⟨_, _, _, hsound⟩ := (gives_construction (L := L) (h.idle rfl) hload hresult).error hstart
    exact .of_idle hsound.reset
  | notLoaded hload hresult =>
    have hidle := h.idle rfl
    exact .of_idle (hidle.afterLoading (hidle.sound.library.comes (Library.brings_load hload)))
  | native n => exact .of_idle ((h.idle rfl).define n)
  | turn ha hturn => exact .of_running ha ((hturn.safe (h.running ha)).1 _ rfl)
  | finish ha hturn => exact .of_idle ((hturn.safe (h.running ha)).2 _ _ rfl (fun _ => nofun)).1
  | fault ha hturn => exact .of_idle ((hturn.safe (h.running ha)).2 _ _ rfl (fun _ => nofun)).2.reset
  | shown output events =>
    exact ⟨fun ha => (h.idle ha).shown output events, fun ha => (h.running ha).shown output events⟩

theorem Reached.orderly (L : Layouts) (h : s.Reached) : s.Orderly {} L :=
  h.induction (orderly_start L) fun _ _ h hnext => h.next hnext

end Session

/-! ### Safety -/

/-- All that an instruction is about to look at is there: its bytes, its operands, the values it takes, and
the captured variables of its call. -/
structure Machine.InBounds (m : Machine) (f : Frame) (i : Instruction) : Prop where
  code : f.position + i.size ≤ f.code.size
  operands : i.Fits f.closure.routine (m.stack.size - f.base)
  /-- Slot 0 stays, but for the object that an object unit returns. -/
  values : f.base + i.taken < m.stack.size ∨ i = .ret ∧ f.base + 1 = m.stack.size
  captures : f.closure.cells.size = f.closure.routine.upvalueCount
  cells : ∀ id ∈ f.closure.cells, id < m.cells.all.size
  slots : ∀ slot (id : CellId), m.cells.all[id]? = some (.opened slot) → slot < m.stack.size

theorem Machine.Ready.inBounds {f : Frame} {rest i} (h : m.Ready past L a)
    (hcalls : m.calls = f :: rest) (hat : f.code.At f.position i) : m.InBounds f i := by
  have hlayout := h.arranged.layout hcalls
  have hproper := h.arranged.proper hcalls hat
  have hallowed := h.arranged.allowed hcalls hat
  have hsize := h.arranged.size_eq hcalls
  have hvalid := h.closure_valid hcalls
  obtain ⟨_, hmidway, _⟩ := h.arranged
  refine ⟨?_, ?_, ?_, hvalid.size_eq, hvalid.lt_size, fun slot id hopened => ?_⟩
  · obtain ⟨j, hj, hle⟩ := hlayout.whole f.position hat.boundary hat.lt_size
    rw [show i = j from Option.some.inj (hat.instruction.symm.trans hj)]
    exact hle
  · rw [show m.stack.size - f.base = (L.shapeOf f).height by omega]
    exact hallowed.fits hproper
  · rcases hallowed.taken_lt hproper with hlt | ⟨rfl, _, hone⟩
    · exact .inl (by omega)
    · exact .inr ⟨rfl, by omega⟩
  · exact (hmidway.owned slot id ((h.sound.cells.opened_iff slot id).mpr hopened)).1

namespace Session

/-- What all faults that turns of a session have are like, whatever is shown. -/
structure Faults (s : Session) (X : Fault → Machine → Prop) : Prop where
  turn : ∀ {a m m' f}, a ≠ .idle → s.Leads ⟨a, m⟩ → Turn m (.error (.fault f) m') → X f m'
  shown : ∀ (m : Machine) output f, X f m → X f { m with output }

namespace Faults

variable {X : Fault → Machine → Prop} {host : Host Id} {fuel : Nat} {f : Fault} {trace : Backtrace}

theorem course (h : s.Faults X) (hs : s.Reached) (ha : a ≠ .idle) :
    Course (fun m => s.Leads ⟨a, m⟩) (fun v _ => a = .construction → ∃ o, v = .object o) X where
  goes _ _ hm hturn := hm.tail (.turn ha hturn)
  finishes _ _ _ hm hturn :=
    ((hturn.safe (((hs.leads hm).orderly .some).running ha)).2 _ _ rfl (fun _ => nofun)).2
  fails _ _ _ hm hturn := h.turn ha hm hturn
  shown m output hm := hm.tail (.shown output m.events)
  shown_finished _ _ _ hv := hv
  shown_failed := h.shown

theorem interpret (h : Faults ⟨.idle, m⟩ X) (hs : Reached ⟨.idle, m⟩)
    (hrelay : RelaysOutput host) (hr : compileScript name source = .ok r)
    (hresult : (m.interpret host fuel r).1 = .error (.runtime f trace)) :
    ∃ m', X f m' ∧ trace = m'.backtrace ∧ (m.interpret host fuel r).2 = m'.reset := by
  have hstart : Leads ⟨.idle, m⟩ ⟨.script, _⟩ := .single (.script hr rfl)
  have hrun := (h.course hs (a := .script) nofun).run hrelay fuel (show (Exec.enter r).Gives m _ _ from hstart)
  rw [show (host.run fuel (Exec.enter r) m).1 = _ from hresult] at hrun
  exact hrun

theorem loadObject (h : Faults ⟨.idle, m⟩ X) (hs : Reached ⟨.idle, m⟩) (hrelay : RelaysOutput host)
    (hstart : ∀ {loading p f m'}, m.library.load path m.nextSerial host.textOf = loading → loading.result = .ok p →
      Exec.construction p (m.afterLoading loading) = .error (.fault f) m' → X f m')
    (hresult : (m.loadObject host fuel path).1 = .error (.runtime f trace)) :
    ∃ m', X f m' ∧ trace = m'.backtrace ∧ (m.loadObject host fuel path).2 = m'.reset := by
  generalize hloading : m.library.load path m.nextSerial host.textOf = loading
  cases hloaded : loading.result with
  | error e =>
    rw [loadObject_eq_error fuel hloading hloaded] at hresult
    cases hresult
  | ok p =>
    rw [loadObject_eq fuel hloading hloaded] at hresult ⊢
    have hrun := (h.course hs (a := .construction) nofun).run hrelay fuel (m := m.afterLoading loading)
      (show (Exec.construction p).Gives _ _ _ from ?_)
    · cases hended : (host.run fuel (Exec.construction p) (m.afterLoading loading)).1 with
      | ok v =>
        rw [hended] at hrun hresult
        obtain ⟨o, rfl⟩ := hrun rfl
        cases hresult
      | error failure =>
        rw [hended] at hrun hresult
        cases hresult
        exact hrun
    · unfold Gives
      cases hended : Exec.construction p (m.afterLoading loading) with
      | ok _ m' => exact .single (.construction hloading hloaded hended)
      | error stop m' =>
        obtain ⟨⟨f, rfl⟩, _⟩ := (construction_cases p).error hended
        exact hstart hloading hloaded hended

end Faults

theorem Reached.faults_safe (h : s.Reached) : s.Faults fun f _ => ¬ f.IsInternal where
  turn ha hm hturn := ((hturn.safe (((h.leads hm).orderly .some).running ha)).2 _ _ rfl (fun _ => nofun)).1
  shown _ _ _ hf := hf

/-- No session gets its machine into trouble. While it is at work there is always an instruction, and all
that the instruction looks at is there; no turn fails in a way that only bad code could make it fail, and
the construction of an object ends with an object. Neither scripts nor objects, whoever runs them, fail in
such a way. -/
theorem session_safe {a : Activity} {m : Machine} (h : Reached ⟨a, m⟩) : (a ≠ .idle →
      (∀ m', Exec.startProgram m = .ok () m' →
        ∃ f i, m'.frames.back? = some f ∧ f.code.At f.position i ∧ m'.InBounds f i) ∧
      (∀ f m', Turn m (.error (.fault f) m') → ¬ f.IsInternal) ∧
      (a = .construction → ∀ v m', Turn m (.error (.finished v) m') → ∃ o, v = .object o)) ∧
    (a = .idle → ∀ (host : Host Id) fuel, RelaysOutput host →
      (∀ name source r f trace, compileScript name source = .ok r →
        (m.interpret host fuel r).1 = .error (.runtime f trace) → ¬ f.IsInternal) ∧
      ∀ path f trace, (m.loadObject host fuel path).1 = .error (.runtime f trace) → ¬ f.IsInternal) := by
  have horderly := h.orderly .some
  refine ⟨fun ha => ?_, fun ha host fuel hrelay => ?_⟩
  · have hrunning := horderly.running ha
    refine ⟨fun m' hstart => ?_, fun f m' hturn => ?_, fun hconstruction v m' hturn => ?_⟩
    · have hready := (gives_startProgram hrunning).ok hstart
      obtain ⟨f, rest, i, hcalls, hback, hat⟩ := hready.exists_at
      exact ⟨f, i, hback, hat, hready.inBounds hcalls hat⟩
    · exact ((hturn.safe hrunning).2 _ _ rfl (fun _ => nofun)).1
    · exact ((hturn.safe hrunning).2 _ _ rfl (fun _ => nofun)).2 hconstruction
  · subst ha
    have hidle := horderly.idle rfl
    refine ⟨fun name source r f trace hr hresult => ?_, fun path f trace hresult => ?_⟩
    · obtain ⟨_, hf, _⟩ := h.faults_safe.interpret h hrelay hr hresult
      exact hf
    · have hstart : ∀ {loading p f m'}, m.library.load path m.nextSerial host.textOf = loading →
          loading.result = .ok p → Exec.construction p (m.afterLoading loading) = .error (.fault f) m' →
          ¬ f.IsInternal := by
        intro loading p f m' hload hloaded hended
        obtain ⟨_, hfault, hf, _⟩ := (gives_construction (L := .some) hidle hload hloaded).error hended
        cases hfault
        exact hf
      obtain ⟨_, hf, _⟩ := h.faults_safe.loadObject h hrelay hstart hresult
      exact hf

set_option maxRecDepth 20000 in
/-- A script that is about to make a counter and call it, as the first thing a machine does. -/
theorem session_safe_counter : ∃ m, Reached ⟨.script, m⟩ ∧ (∀ m', Exec.startProgram m = .ok () m' →
        ∃ f i, m'.frames.back? = some f ∧ f.code.At f.position i ∧ m'.InBounds f i) ∧
      ∀ f m', Turn m (.error (.fault f) m') → ¬ f.IsInternal := by
  have hok : (compileScript "main" "{var n=a;f=function(){n=n+a;return n;};}f();").isOk := by cbv
  cases h : compileScript "main" "{var n=a;f=function(){n=n+a;return n;};}f();" with
  | error e =>
    rw [h] at hok
    cases hok
  | ok r =>
    have hreached : Reached ⟨.script, _⟩ := ⟨{}, .memory ∅, ".c", .single (.script h rfl)⟩
    have hsafe := (session_safe hreached).1 (by rintro ⟨⟩)
    exact ⟨_, hreached, hsafe.1, hsafe.2.1⟩

end Session

end Mudscript
