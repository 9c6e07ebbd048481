import Mudscript.Proofs.Returns

/-!
# Backtraces

A fault is reported with a line for each call that is under way. A call has moved on to the end of the
instruction that it executes, whether the instruction fails, calls, or loads an object, and all bytes of an
instruction are on one line: so the byte before the call tells the line of the instruction.

Which instruction a call was executing is a matter of the turns that led to the fault. `Session.LastAt` says it:
in some turn the call was the innermost one and executed the instruction, and in no turn since then was it the
innermost one again. The invariant `Session.Waiting` says of each call that waits, for a call above it or for a
program to be started, that this instruction is one that calls or loads, and that the call is at the end of it.
-/

namespace Mudscript

open Machine Exec

variable {trace : Backtrace} {fault : Fault} {host : Host Id} {fuel next : Nat} {source : String}

variable {past : Moment} {L : Layouts} {a : Activity} {m m' m1 : Machine} {f : Frame} {rest : List Frame}
  {i : Instruction} {c : Closure} {arguments : Nat} {r q : Routine}

/-! ### Lines of compiled code -/

theorem Compile.ascends_of_run {scope : Scope} {body}
    (h : run source scope body = .ok r) (horderly : (last source scope body).Orderly false) : r.Ascends := by
  unfold run at h
  dsimp only at h
  split at h
  · cases h
    exact horderly.written.current.toRoutine
  · cases h

theorem Routine.IsCompiled.ascends (h : r.IsCompiled) : r.Ascends := by
  rcases h with ⟨name, source, h⟩ | ⟨path, source, h⟩
  · exact Compile.ascends_of_run h (Compile.last_script_orderly name source)
  · exact Compile.ascends_of_run h (Compile.last_object_orderly path source)

theorem Routine.IsCompiled.lineAt_eq (h : r.IsCompiled) (hq : r.Within q) {offset k : Nat} (hat : q.code.At offset i)
    (hk : k < i.size) : q.code.lineAt (offset + k) = q.code.lineAt offset := by
  obtain ⟨is, d, hlogs, hcode⟩ := h.logged q hq
  rw [hcode] at hat ⊢
  exact hlogs.lineAt_eq hat hk

theorem Frame.line_eq {p : Nat} (hf : f.closure.Valid m.moment) (hat : f.code.At p i)
    (hposition : f.position = p + i.size) : f.traceLine.line = f.code.lineAt p := by
  obtain ⟨unit, hunit, hwithin⟩ := hf.compiled
  have hpos := i.size_pos
  show f.code.lineAt (f.position - 1) = _
  rw [show f.position - 1 = p + (i.size - 1) by omega]
  exact hunit.lineAt_eq hwithin hat (by omega)

/-! ### Instructions and calls -/

def Machine.Clean (m : Machine) : Prop := ∀ p, Value.program p ∉ m.stack

theorem Machine.Ready.clean (h : m.Ready past L a) : m.Clean := fun _ hp => h.sound.stack _ hp

theorem Machine.Clean.ne_program (h : m.Clean) (depth : Nat) (p : Program) :
    m.stack[depth]?.getD .nil ≠ .program p := by
  intro heq
  cases hv : m.stack[depth]? with
  | none =>
    rw [hv] at heq
    cases heq
  | some v =>
    rw [hv] at heq
    exact h p (heq ▸ Array.mem_of_getElem? hv)

/-- An action that makes a call, if at all, as the last thing it does. -/
def Exec.CallsLast (m : Machine) (x : Exec Unit) : Prop :=
  x.Gives m (fun _ m' => m'.frames = m.frames ∨ ∃ g, m'.frames = m.frames.push g ∧ m'.Clean)
    fun stop m' => m'.frames = m.frames ∧ stop.Needed m'

namespace Exec.CallsLast

theorem of_keeps {x : Exec Unit} (h : KeepsFrom (fun m m' => m'.frames = m.frames) m x) : CallsLast m x :=
  h.mono (fun _ _ heq => .inl heq) fun _ _ hstop => hstop

theorem callClosure (h : m.Clean) (c : Closure) (arguments : Nat) : CallsLast m (callClosure c arguments) :=
  gives_callClosure ⟨rfl, trivial⟩ ⟨rfl, trivial⟩ fun _ _ => .inr ⟨_, rfl, h⟩

theorem callValue (h : m.Clean) (arguments : Nat) : CallsLast m (callValue arguments) := by
  exact gives_callValue (fun c _ => callClosure h c arguments)
    (fun n _ => of_keeps (coarse_frames.graded.callNative (fun _ _ => rfl) n arguments m))
    (fun p hp => absurd hp (h.ne_program _ p)) fun _ _ => ⟨rfl, trivial⟩

theorem invoke (h : m.Sound past) (hclean : m.Clean) (name : String) (arguments : Nat) :
    CallsLast m (invoke name arguments) := by
  apply gives_invoke
  · exact fun _ c _ _ => callClosure hclean c arguments
  · intro o v _ hv
    refine @callValue (m.withStack _) (fun p hp => ?_) arguments
    rcases Array.mem_or_eq_of_mem_setIfInBounds hp with hp | rfl
    · exact hclean p hp
    · exact h.property? hv
  · exact fun _ _ => ⟨rfl, trivial⟩

theorem invokeParent (hclean : m.Clean) (name : String) (arguments : Nat) :
    CallsLast m (invokeParent name arguments) := by
  have hpopped : (m.withStack m.stack.pop).Clean := fun p hp => hclean p (mem_of_mem_pop hp)
  exact gives_invokeParent (fun _ c _ _ => callClosure hpopped c arguments) fun _ _ => ⟨rfl, trivial⟩

theorem execute (h : m.Sound past) (hclean : m.Clean) (hpath : i.leavesPath = false) :
    CallsLast m (execute f next i) := by
  by_cases hi : i.called? = none
  · exact of_keeps (execute_frames hi hpath)
  · cases i with
    | call arguments => exact callValue hclean arguments
    | invoke name arguments => exact invoke h hclean _ arguments
    | superInvoke name arguments => exact invokeParent hclean _ arguments
    | _ => exact absurd rfl hi

end Exec.CallsLast

theorem Exec.execute_leavesPath (hpath : i.leavesPath = true) :
    (execute f next i).Gives m (fun _ _ => True) fun stop _ => ∃ v, stop = .finished v := by
  cases i with
  | ret => exact gives_leave f (fun _ => ⟨_, rfl⟩) fun _ => trivial
  | jump _ | loop _ => trivial
  | jumpIfFalse _ =>
    unfold execute
    rw [gives_bind, gives_peek, gives_ite]
    exact ⟨fun _ => trivial, fun _ => trivial⟩
  | _ => cases hpath

namespace Machine.Performs

theorem calls_of_fault (h : m.Performs f i (.error (.fault fault) m')) (hready : m.Ready past L a)
    (hcalls : m.calls = f :: rest) : m'.calls = { f with position := f.position + i.size } :: rest := by
  have hgone : ∀ events, (({ m with events } : Machine).goTo (f.position + i.size)).calls
      = { f with position := f.position + i.size } :: rest := fun events => calls_goTo (m := { m with events }) hcalls _
  have hexecute : ∀ events, (execute f (f.position + i.size) i).Gives
      (({ m with events } : Machine).goTo (f.position + i.size)) (fun _ _ => True) fun stop m1 =>
        (∃ v, stop = .finished v) ∨ m1.calls = { f with position := f.position + i.size } :: rest ∧ stop.Needed m1 := by
    intro events
    cases hpath : i.leavesPath with
    | true => exact (execute_leavesPath hpath).mono (fun _ _ _ => trivial) fun _ _ hstop => .inl hstop
    | false =>
      apply (CallsLast.execute ((hready.shown m.output events).sound.goTo _) hready.clean hpath).mono
      · exact fun _ _ _ => trivial
      · rintro stop m1 ⟨hframes, hneeded⟩
        refine .inr ⟨?_, hneeded⟩
        rw [calls, hframes, ← calls, hgone]
  cases h with
  | alone heq _ =>
    rcases (hexecute _).error heq with ⟨v, hv⟩ | ⟨hcalls', _⟩
    · cases hv
    · exact hcalls'
  | answered heq haction hresult =>
    rcases (hexecute _).error heq with ⟨v, hv⟩ | ⟨hcalls', hneeded⟩
    · cases hv
    · have hframes := ((coarse_frames.answer haction hneeded _).error hresult).1
      rw [calls, hframes]
      exact hcalls'

/-- An instruction that neither calls nor loads leaves no other call on top and no program, but for a return. -/
theorem settles (h : m.Performs f i (.ok () m')) (hready : m.Ready past L a) (hcalls : m.calls = f :: rest)
    (hat : f.code.At f.position i) (hi : i.reachesOut = false) (hret : i ≠ .ret) :
    m'.Clean ∧ ∃ target, m'.calls = { f with position := target } :: rest := by
  have hcalled : i.called? = none := by
    cases i with
    | call _ | invoke _ _ | superInvoke _ _ => cases hi
    | _ => rfl
  obtain ⟨entered, target, hcalls', _, _, hentered⟩ := h.advances hcalls hret
  rw [hentered hcalled, List.nil_append] at hcalls'
  refine ⟨?_, target, hcalls'⟩
  apply h.gives_alone
  intro events
  apply (settles_execute (hready.shown m.output events) hcalls hat hi).mono
  · exact fun _ _ hready' => hready'.clean
  · rintro _ _ hends r rfl
    exact hends

/-- After an instruction that calls or loads there is one more call, or as many as before. -/
theorem reachesOut (h : m.Performs f i (.ok () m')) (hready : m.Ready past L a) (hcalls : m.calls = f :: rest)
    (hi : i.reachesOut = true) : m'.calls = { f with position := f.position + i.size } :: rest ∨
      ∃ g, m'.calls = g :: { f with position := f.position + i.size } :: rest ∧ m'.Clean := by
  have hgone : ∀ events, (({ m with events } : Machine).goTo (f.position + i.size)).calls
      = { f with position := f.position + i.size } :: rest := fun events => calls_goTo (m := { m with events }) hcalls _
  have hpath : i.leavesPath = false := by
    cases i with
    | call _ | invoke _ _ | superInvoke _ _ | compile => rfl
    | _ => cases hi
  apply h.gives (E := fun r m1 => m1.calls = { f with position := f.position + i.size } :: rest ∧
    (Stop.request r).Needed m1)
  · intro events
    apply (CallsLast.execute ((hready.shown m.output events).sound.goTo _) hready.clean hpath).mono
    · rintro _ m1 (hframes | ⟨g, hframes, hclean⟩)
      · refine .inl ?_
        rw [calls, hframes, ← calls, hgone]
      · refine .inr ⟨g, ?_, hclean⟩
        rw [calls, hframes, Array.toList_push, List.reverse_append, ← calls, hgone]
        rfl
    · rintro stop m1 ⟨hframes, hneeded⟩ r rfl
      refine ⟨?_, hneeded⟩
      rw [calls, hframes, ← calls, hgone]
  · rintro r m1 output action ⟨hcalls', hneeded⟩ haction
    apply (coarse_frames.answer haction hneeded output).mono
    · intro _ m2 hframes
      refine .inl ?_
      rw [calls, hframes]
      exact hcalls'
    · exact fun _ _ _ => trivial

end Machine.Performs

namespace Session

/-! ### What calls were doing -/

/-- The last instruction that the call `f`, on top of the calls `rest`, has executed is the one at `p`. -/
inductive LastAt (a : Activity) (f : Frame) (rest : List Frame) (p : Nat) : Machine → Prop
  | executes {m m1 m' : Machine} : Reached ⟨a, m⟩ → startProgram m = .ok () m1 →
      m1.calls = { f with position := p } :: rest → Turn m (.ok () m') → LastAt a f rest p m'
  | waits {m m1 m' : Machine} : LastAt a f rest p m → startProgram m = .ok () m1 → rest.length + 1 < m1.frames.size →
      Turn m (.ok () m') → LastAt a f rest p m'
  | shown {m : Machine} (output : String) (events : Array Event) : LastAt a f rest p m →
      LastAt a f rest p { m with output, events }

/-- A call has come to the end of an instruction that calls or loads, and it is the last one it has executed. -/
def Suspended (a : Activity) (m : Machine) (f : Frame) (rest : List Frame) : Prop :=
  ∃ p i, f.code.At p i ∧ i.reachesOut = true ∧ f.position = p + i.size ∧ LastAt a f rest p m

/-- Each call that waits is suspended: those below the innermost one, and the innermost one as well if a program is
to be started. -/
def Waiting (a : Activity) (m : Machine) : Prop :=
  ∀ inner f rest, m.calls = inner ++ f :: rest → (inner ≠ [] ∨ ¬ m.Clean) → Suspended a m f rest

theorem Waiting.of_first (hm : m.frames = #[]) (hframes : ∃ g, m'.frames = m.frames.push g) (hclean : m'.Clean) :
    Waiting a m' := by
  obtain ⟨g, hframes⟩ := hframes
  intro inner f rest hf hwaits
  rw [calls, hframes, hm] at hf
  cases inner with
  | nil => exact hwaits.elim (absurd rfl) (absurd hclean)
  | cons _ inner => simp at hf

theorem Waiting.started {inner} {g : Frame} (h : Waiting a m) (hrunning : m.Running past L a)
    (hstart : startProgram m = .ok () m1) (hcalls : m1.calls = g :: (inner ++ f :: rest)) : Suspended a m f rest := by
  rcases hrunning.started hstart with ⟨_, rfl⟩ | ⟨p, hback, _, rfl⟩
  · exact h (g :: inner) f rest hcalls (.inl (List.cons_ne_nil _ _))
  · have hcalls' : m.calls = inner ++ f :: rest := (List.cons.inj (calls_push.symm.trans hcalls)).2
    exact h inner f rest hcalls' (.inr fun hclean => hclean p (Array.mem_of_back? hback))

theorem Suspended.waits (h : Suspended a m f rest) (hstart : startProgram m = .ok () m1)
    (hdepth : rest.length + 1 < m1.frames.size) (hturn : Turn m (.ok () m')) : Suspended a m' f rest := by
  obtain ⟨p, i, hat, hi, hposition, hlast⟩ := h
  exact ⟨p, i, hat, hi, hposition, hlast.waits hstart hdepth hturn⟩

theorem Waiting.turn (h : Waiting a m) (hm : Reached ⟨a, m⟩) (ha : a ≠ .idle) (hturn : Turn m (.ok () m')) :
    Waiting a m' := by
  have hrunning := (hm.orderly .some).running ha
  obtain ⟨m1, f1, rest1, i1, hfetches, hperforms⟩ := hturn.fetches hrunning
  -- The calls below the innermost one go on waiting.
  have hbelow : ∀ inner f rest, rest1 = inner ++ f :: rest → Suspended a m' f rest := by
    rintro inner f rest rfl
    refine (h.started hrunning hfetches.started hfetches.calls_eq).waits hfetches.started ?_ hturn
    have hlength := congrArg List.length hfetches.calls_eq
    simp only [calls, List.length_reverse, Array.length_toList, List.length_cons, List.length_append] at hlength
    omega
  -- The innermost one begins to wait, with an instruction that calls or loads.
  have hnow : i1.reachesOut = true → Suspended a m' { f1 with position := f1.position + i1.size } rest1 := fun hi =>
    ⟨f1.position, i1, hfetches.instruction, hi, rfl, .executes hm hfetches.started hfetches.calls_eq hturn⟩
  intro inner f rest hcalls hwaits
  by_cases hret : i1 = .ret
  · subst hret
    exact hbelow inner f rest ((hperforms.returns hfetches.calls_eq).1.symm.trans hcalls)
  cases hi : i1.reachesOut with
  | false =>
    obtain ⟨hclean, target, hcalls'⟩ := hperforms.settles hfetches.ready hfetches.calls_eq hfetches.instruction hi hret
    cases inner with
    | nil => exact hwaits.elim (absurd rfl) (absurd hclean)
    | cons _ inner => exact hbelow inner f rest (List.cons.inj (hcalls'.symm.trans hcalls)).2
  | true =>
    rcases hperforms.reachesOut hfetches.ready hfetches.calls_eq hi with hcalls' | ⟨g, hcalls', hclean⟩
    · have heq := hcalls'.symm.trans hcalls
      cases inner with
      | nil =>
        obtain ⟨rfl, rfl⟩ := List.cons.inj heq
        exact hnow hi
      | cons _ inner => exact hbelow inner f rest (List.cons.inj heq).2
    · have heq := hcalls'.symm.trans hcalls
      rcases inner with _ | ⟨_, _ | ⟨_, inner⟩⟩
      · exact hwaits.elim (absurd rfl) (absurd hclean)
      · obtain ⟨rfl, rfl⟩ := List.cons.inj (List.cons.inj heq).2
        exact hnow hi
      · exact hbelow inner f rest (List.cons.inj (List.cons.inj heq).2).2

theorem Waiting.shown (h : Waiting a m) (output : String) (events : Array Event) :
    Waiting a { m with output, events } := by
  intro inner f rest hcalls hwaits
  obtain ⟨p, i, hat, hi, hposition, hlast⟩ := h inner f rest hcalls hwaits
  exact ⟨p, i, hat, hi, hposition, hlast.shown output events⟩

theorem Reached.waiting (h : Reached ⟨a, m⟩) (ha : a ≠ .idle) : Waiting a m := by
  obtain ⟨settings, source, extension, hleads⟩ := h
  generalize hs : Session.mk a m = s at hleads
  induction hleads generalizing a m with
  | refl =>
    cases hs
    exact absurd rfl ha
  | @tail s1 s2 hleads hnext ih =>
    have hreached : s1.Reached := ⟨settings, source, extension, hleads⟩
    cases hnext with
    | @script m1 _ _ _ _ hr hstart =>
      cases hs
      have hidle := (hreached.orderly .some).idle rfl
      have hready : Machine.Ready {} .some .script _ := (gives_enter hidle hr).ok hstart
      refine .of_first hidle.frames_eq ?_ hready.clean
      cases hstart
      exact ⟨_, rfl⟩
    | @construction m1 _ _ _ loading p hload hresult hstart =>
      cases hs
      have hidle := (hreached.orderly .some).idle rfl
      have hready := (gives_construction (L := .some) hidle hload hresult).ok hstart
      exact .of_first hidle.frames_eq ((construction_cases (m := m1.afterLoading loading) p).ok hstart) hready.clean
    | turn ha' hturn =>
      cases hs
      exact (ih ha' rfl).turn hreached ha' hturn
    | shown output events =>
      cases hs
      exact (ih ha rfl).shown output events
    | _ =>
      cases hs
      exact absurd rfl ha

/-! ### Reports of faults -/

/-- The fault of a turn that a session comes to is reported, with a line for each call that was under way. -/
def Reports (s : Session) (fault : Fault) (trace : Backtrace) : Prop :=
  ∃ a m m', s.Leads ⟨a, m⟩ ∧ a ≠ .idle ∧ Turn m (.error (.fault fault) m') ∧ trace = m'.backtrace

theorem faults_reports (s : Session) (P : Backtrace → Prop) :
    s.Faults fun fault m => P m.backtrace ∨ s.Reports fault m.backtrace where
  turn ha hm hturn := .inr ⟨_, _, _, hm, ha, hturn, rfl⟩
  shown _ _ _ h := h

theorem Reached.interpret_reports {name : String}
    (h : Reached ⟨.idle, m⟩) (hrelay : RelaysOutput host) (hr : compileScript name source = .ok r)
    (hresult : (m.interpret host fuel r).1 = .error (.runtime fault trace)) : Reports ⟨.idle, m⟩ fault trace := by
  obtain ⟨m', hreports, rfl, _⟩ := (faults_reports _ fun _ => False).interpret h hrelay hr hresult
  exact hreports.resolve_left id

theorem Reached.loadObject_reports {path : String} (h : Reached ⟨.idle, m⟩) (hrelay : RelaysOutput host)
    (hresult : (m.loadObject host fuel path).1 = .error (.runtime fault trace)) :
    trace = [] ∨ Reports ⟨.idle, m⟩ fault trace := by
  have hstart : ∀ {loading p f m'}, m.library.load path m.nextSerial host.textOf = loading → loading.result = .ok p →
      Exec.construction p (m.afterLoading loading) = .error (.fault f) m' →
      m'.backtrace = [] ∨ Reports ⟨.idle, m⟩ f m'.backtrace := by
    intro loading p f m' _ _ hended
    have hframes : m'.frames = m.frames := ((construction_cases (m := m.afterLoading loading) p).error hended).2
    refine .inl ?_
    rw [backtrace, hframes, ((h.orderly .some).idle rfl).frames_eq]
    rfl
  obtain ⟨m', hreports, rfl, _⟩ := (faults_reports _ (· = [])).loadObject h hrelay hstart hresult
  exact hreports

/-- What the calls were doing when a turn fails, and that their lines tell it. -/
theorem Turn.lines {inner} (h : Reached ⟨a, m⟩) (ha : a ≠ .idle)
    (hturn : Turn m (.error (.fault fault) m')) (hcalls : m'.calls = inner ++ f :: rest) :
    ∃ p i, f.code.At p i ∧ f.traceLine.line = f.code.lineAt p ∧
      (inner = [] ∧ (∃ m1, startProgram m = .ok () m1 ∧ m1.calls = { f with position := p } :: rest) ∨
        (inner ≠ [] ∨ startProgram m = .error (.fault fault) m') ∧ i.reachesOut = true ∧ LastAt a f rest p m) := by
  have hrunning := (h.orderly .some).running ha
  have hwaiting := h.waiting ha
  rcases hturn.performs hrunning with ⟨stop, _, hstart, heq⟩ | ⟨m1, f1, rest1, i1, hfetches, hperforms⟩
  · cases heq
    obtain ⟨_, hsame, p, hback⟩ := (startProgram_stop m).error hstart
    have hprogram : ¬ m.Clean := fun hclean => hclean p (Array.mem_of_back? hback)
    rw [calls, hsame, ← calls] at hcalls
    obtain ⟨p, i, hat, hi, hposition, hlast⟩ := hwaiting inner f rest hcalls (.inr hprogram)
    rcases hrunning with hready | ⟨m0, _, rfl, _, hawaits⟩
    · exact absurd hready.clean hprogram
    · have hmem : f ∈ m0.frames := mem_calls.mp (show f ∈ m0.calls from hcalls ▸ by simp)
      have hvalid : f.closure.Valid m0.moment := hawaits.sound.frames f hmem
      exact ⟨p, i, hat, Frame.line_eq hvalid hat hposition, .inr ⟨.inr hstart, hi, hlast⟩⟩
  · have heq := (hperforms.calls_of_fault hfetches.ready hfetches.calls_eq).symm.trans hcalls
    cases inner with
    | nil =>
      obtain ⟨rfl, rfl⟩ := List.cons.inj heq
      have hvalid : f1.closure.Valid m1.moment := hfetches.ready.closure_valid hfetches.calls_eq
      have hline := Frame.line_eq (f := { f1 with position := f1.position + i1.size }) hvalid hfetches.instruction rfl
      exact ⟨f1.position, i1, hfetches.instruction, hline, .inl ⟨rfl, m1, hfetches.started, hfetches.calls_eq⟩⟩
    | cons g inner =>
      obtain ⟨_, rfl⟩ := List.cons.inj heq
      obtain ⟨p, i, hat, hi, hposition, hlast⟩ := hwaiting.started hrunning hfetches.started hfetches.calls_eq
      have hmem : f ∈ m1.frames := mem_calls.mp (hfetches.calls_eq ▸ by simp)
      have hvalid : f.closure.Valid m1.moment := hfetches.ready.sound.frames f hmem
      exact ⟨p, i, hat, Frame.line_eq hvalid hat hposition, .inr ⟨.inl (List.cons_ne_nil _ _), hi, hlast⟩⟩

/-- Backtraces are exact. In the code of a compiled unit, and of each function in it, each byte has a line, all bytes of
an instruction have the same, and the lines never go back. What scripts and objects report when they fail are the lines
of the calls at the turn that fails, to which the session comes from the start of the run. Each of them is the line of
the instruction the call was executing: for the innermost call the one that fails, and for the others the one, a call or
the loading of an object, that they have executed last. If what fails is the start of a program, then that goes for the
innermost call as well. -/
theorem backtraces_exact : (∀ r q : Routine, r.IsCompiled → r.Within q →
      q.code.lines.size = q.code.size ∧ q.code.lines.toList.Pairwise (· ≤ ·) ∧
      ∀ offset i, q.code.At offset i → ∀ k < i.size, q.code.lineAt (offset + k) = q.code.lineAt offset) ∧
    (∀ (m : Machine) (host : Host Id) fuel, Reached ⟨.idle, m⟩ → RelaysOutput host →
      (∀ name source r fault trace, compileScript name source = .ok r →
        (m.interpret host fuel r).1 = .error (.runtime fault trace) → Reports ⟨.idle, m⟩ fault trace) ∧
      ∀ path fault trace, (m.loadObject host fuel path).1 = .error (.runtime fault trace) →
        trace = [] ∨ Reports ⟨.idle, m⟩ fault trace) ∧
    ∀ a m m' fault, Reached ⟨a, m⟩ → a ≠ .idle → Turn m (.error (.fault fault) m') →
      m'.backtrace = m'.calls.map Frame.traceLine ∧
      ∀ inner f rest, m'.calls = inner ++ f :: rest → ∃ p i, f.code.At p i ∧ f.traceLine.line = f.code.lineAt p ∧
        (inner = [] ∧ (∃ m1, startProgram m = .ok () m1 ∧ m1.calls = { f with position := p } :: rest) ∨
          (inner ≠ [] ∨ startProgram m = .error (.fault fault) m') ∧ i.reachesOut = true ∧ LastAt a f rest p m) := by
  refine ⟨fun r q hr hq => ⟨?_, hr.ascends q hq, fun offset i hat k hk => hr.lineAt_eq hq hat hk⟩, ?_, ?_⟩
  · obtain ⟨is, d, hlogs, hcode⟩ := hr.logged q hq
    obtain ⟨_, _, _, _, hlines⟩ := hlogs.exists_alike
    rw [hcode]
    exact hlines
  · exact fun m host fuel h hrelay =>
      ⟨fun name source r fault trace hr => h.interpret_reports hrelay hr,
        fun path fault trace => h.loadObject_reports hrelay⟩
  · refine fun a m m' fault h ha hturn => ⟨?_, fun inner f rest => hturn.lines h ha⟩
    rw [backtrace, calls, List.map_reverse]

set_option maxRecDepth 20000 in
/-- A function fails on the second line of a script, which calls it on the fourth. -/
theorem backtraces_exact_call : ∃ (r : Routine) (m m' : Machine) (f g : Frame) (fault : Fault),
      compileScript "main" "\x7bvar f=function()\x7b\nreturn -nil;\x7d;\n\nf();\x7d" = .ok r ∧
        r.code.lines.toList.Pairwise (· ≤ ·) ∧
      Reached ⟨.script, m⟩ ∧ Turn m (.error (.fault fault) m') ∧ m'.calls = [f, g] ∧
      m'.backtrace.map TraceLine.line = [2, 4] ∧
      (∃ p i, f.code.At p i ∧ f.code.lineAt p = 2) ∧
      ∃ p i, g.code.At p i ∧ g.code.lineAt p = 4 ∧ i.reachesOut = true ∧ LastAt .script g [] p m := by
  obtain ⟨r, hr, m, hm, _, m', hm', hsize, htrace, rfl⟩ :
      ∃ r, compileScript "main" "\x7bvar f=function()\x7b\nreturn -nil;\x7d;\n\nf();\x7d" = .ok r ∧
      ∃ m, (Exec.enter r *> Exec.steps 4) (start {} (.memory ∅) "").machine = .ok () m ∧
      ∃ stop m', Exec.step m = .error stop m' ∧ m'.frames.size = 2 ∧
        m'.backtrace.map TraceLine.line = [2, 4] ∧ stop = .fault .operandNotNumber := Computed.intro _ (by cbv)
  have hactive : Activity.script ≠ .idle := by rintro ⟨⟩
  have hreached : Reached ⟨.script, m⟩ := (reached_start _).script hr hm
  have hturn : Turn m (.error (.fault .operandNotNumber) m') := .step hm' (by rintro _ _ ⟨⟩)
  obtain ⟨hcode, _, hfaults⟩ := backtraces_exact
  obtain ⟨hmap, hlines⟩ := hfaults _ _ _ _ hreached hactive hturn
  obtain ⟨f, g, hcalls⟩ : ∃ f g, m'.calls = [f, g] := List.length_eq_two.mp (by simpa [calls] using hsize)
  rw [hmap, hcalls] at htrace
  obtain ⟨hf, hg⟩ : f.traceLine.line = 2 ∧ g.traceLine.line = 4 := by simpa using htrace
  obtain ⟨p, i, hat, hline, _⟩ := hlines [] f [g] hcalls
  obtain ⟨p', i', hat', hline', hlast⟩ := hlines [f] g [] hcalls
  rcases hlast with ⟨hnil, _⟩ | ⟨_, hi, hlast⟩
  · cases hnil
  · refine ⟨r, m, m', f, g, _, hr, (hcode r r (.inl ⟨_, _, hr⟩) .self).2.1, hreached, hturn, hcalls, ?_,
      ⟨p, i, hat, hline.symm.trans hf⟩, p', i', hat', hline'.symm.trans hg, hi, hlast⟩
    rw [hmap, hcalls]
    exact htrace

end Session

end Mudscript
