import Mudscript.Proofs.Returns

/-!
# How many calls there are

The calls of a machine lie above each other on its stack, and there are no more of them than its settings
allow, but for the outermost call of a script, which is always made. A call that would be one too many fails,
and no other does if the number of its arguments is right.

No turn makes more calls than are allowed, because there is one action only that makes a call while a
machine is at work, and it looks first. What calls a function are instructions, a program that lies on top of
the stack, and a request for an object from outside.
-/

namespace Mudscript

open Machine Exec

variable {o : ObjectId} {s : Session} {E : Stop → Machine → Prop} {name : String} {Q : Unit → Machine → Prop}

variable {past : Moment} {L : Layouts} {a : Activity} {m m' m1 : Machine} {f : Frame} {i : Instruction} {c : Closure}
  {arguments height : Nat} {calls : List Frame}

/-! ### Calls that are made, and calls that are refused -/

structure Machine.Accepts (m : Machine) (c : Closure) (m' : Machine) : Prop where
  room : m.frames.size < m.settings.maxFrames
  size_eq : m'.frames.size = m.frames.size + 1
  back : m'.frames.back?.map (·.closure) = some c

/-- There are as many calls as there may be, and there are no more of them now. -/
structure Machine.Refuses (m : Machine) (stop : Stop) (m' : Machine) : Prop where
  full : m.settings.maxFrames ≤ m.frames.size
  stop_eq : stop = .fault .stackOverflow
  size_eq : m'.frames.size = m.frames.size

/-- The function that an instruction calls, and with how many arguments. -/
def Machine.Selects (m : Machine) (f : Frame) : Instruction → Closure → Nat → Prop
  | .call n, c, arguments => arguments = n ∧ m.stack[m.stack.size - 1 - n]? = some (.closure c)
  | .invoke name n, c, arguments => arguments = n ∧ ∃ o, m.stack[m.stack.size - 1 - n]? = some (.object o) ∧
      m.objects.property? o (f.code.nameAt name) = some (.closure c)
  | .superInvoke name n, c, arguments => arguments = n ∧ ∃ o, m.stack.back? = some (.object o) ∧
      m.objects.method? o (f.code.nameAt name) = some c
  | _, _, _ => False

/-- A session calls a function: with what action, on which machine, which function, and with how many arguments. -/
inductive Session.Summons : Session → Exec Unit → Machine → Closure → Nat → Prop
  | construction {m path} {textOf : String → Except FileError String} {loading p} :
      m.library.load path m.nextSerial textOf = loading → loading.result = .ok p →
      Summons ⟨.idle, m⟩ (Exec.construction p) (m.afterLoading loading) ⟨m.nextSerial + 1, p.routine, #[]⟩ 0
  | program {a m p} : a ≠ .idle → m.stack.back? = some (.program p) →
      Summons ⟨a, m⟩ Exec.step m ⟨m.nextSerial, p.routine, #[]⟩ 0
  | instruction {a : Activity} {m : Machine} {f : Frame} {i : Instruction} {c : Closure} {arguments : Nat} :
      a ≠ .idle → (∀ p, m.stack.back? ≠ some (.program p)) → m.frames.back? = some f →
      f.code.At f.position i → m.Selects f i c arguments → Summons ⟨a, m⟩ Exec.step m c arguments

/-- With the right number of arguments there is nothing but the number of calls that a call can fail for. -/
theorem Exec.gives_accepts (m : Machine) (harity : arguments = c.routine.arity) (hsize : m1.frames.size = m.frames.size)
    (hsettings : m1.settings = m.settings) : (callClosure c arguments).Gives m1
      (fun _ m' => m.Accepts c m' ∧ ∃ base, m'.frames.back? = some ⟨c, 0, base⟩) m.Refuses := by
  unfold callClosure
  rw [if_neg (not_not.mpr harity)]
  show (if m1.settings.maxFrames ≤ m1.frames.size then _ else _ : Exec Unit).Gives m1 _ _
  rw [gives_ite, hsettings, hsize]
  refine ⟨fun hfull => ⟨hfull, rfl, hsize⟩, fun hroom => ⟨⟨Nat.lt_of_not_le hroom, ?_, ?_⟩, _, Array.back?_push⟩⟩
  · exact (Array.size_push _).trans (congrArg (· + 1) hsize)
  · exact congrArg (Option.map Frame.closure) Array.back?_push

/-! ### What makes calls -/

theorem Exec.gives_callValue_closure
    (hc : m.stack[m.stack.size - 1 - arguments]? = some (.closure c)) (h : (callClosure c arguments).Gives m Q E) :
    (callValue arguments).Gives m Q E := by
  unfold callValue
  rw [gives_bind, gives_peek, hc]
  exact h

private theorem Exec.gives_invoke_closure (ho : m.stack[m.stack.size - 1 - arguments]? = some (.object o))
    (hc : m.objects.property? o name = some (.closure c)) (h : (callClosure c arguments).Gives m Q E)
    (hmember : (callClosure c arguments).Gives
      (m.withStack (m.stack.setIfInBounds (m.stack.size - 1 - arguments) (.closure c))) Q E) :
    (invoke name arguments).Gives m Q E := by
  unfold invoke getProperty
  rw [gives_bind, gives_peek, gives_bind, ho, Option.getD_some, show expectObject (.object o) name = pure o from rfl,
    pure_bind, gives_bind, gives_get, hc]
  have hset : (m.withStack (m.stack.setIfInBounds (m.stack.size - 1 - arguments) (.closure c))).stack[
      (m.stack.setIfInBounds (m.stack.size - 1 - arguments) (.closure c)).size - 1 - arguments]?
        = some (.closure c) := by
    rw [withStack_stack, Array.size_setIfInBounds]
    exact Array.getElem?_setIfInBounds_self_of_lt (Array.getElem?_eq_some_iff.mp ho).1
  exact (gives_ite _ _).mpr ⟨fun _ => h, fun _ => gives_callValue_closure hset hmember⟩

private theorem Exec.gives_invokeParent_closure (ho : m.stack.back? = some (.object o))
    (hc : m.objects.method? o name = some c)
    (h : (callClosure c arguments).Gives (m.withStack m.stack.pop) Q E) :
    (invokeParent name arguments).Gives m Q E := by
  unfold invokeParent
  rw [gives_bind, gives_pop, ho, Option.getD_some, show expectObject (.object o) name = pure o from rfl, pure_bind,
    gives_bind, gives_get, show Objects.method? (m.withStack m.stack.pop).objects o name = _ from hc]
  exact h

theorem Machine.Selects.execute (h : m.Selects f i c arguments) (harity : arguments = c.routine.arity)
    (events : Array Event) (next : Nat) :
    (execute f next i).Gives (({ m with events } : Machine).goTo next) (fun _ => m.Accepts c) m.Refuses := by
  have hsize : (({ m with events } : Machine).goTo next).frames.size = m.frames.size := Array.size_modify
  have hcall : ∀ stack, (callClosure c arguments).Gives ((({ m with events } : Machine).goTo next).withStack stack)
      (fun _ => m.Accepts c) m.Refuses :=
    fun _ => .mono (gives_accepts m harity hsize rfl) (fun _ _ h => h.1) fun _ _ h => h
  cases i with
  | call n =>
    obtain ⟨rfl, hc⟩ := h
    exact gives_callValue_closure hc (hcall _)
  | invoke name n =>
    obtain ⟨rfl, o, ho, hc⟩ := h
    exact gives_invoke_closure ho hc (hcall _) (hcall _)
  | superInvoke name n =>
    obtain ⟨rfl, o, ho, hc⟩ := h
    exact gives_invokeParent_closure ho hc (hcall _)
  | _ => exact h.elim

theorem Machine.Accepts.moves {next : Nat} (h : m.Accepts c m1) (hframes : m'.frames = (m1.goTo next).frames) :
    m.Accepts c m' := by
  obtain ⟨f, hf, hclosure⟩ := Option.map_eq_some_iff.mp h.back
  rw [← head?_calls, List.head?_eq_some_iff] at hf
  obtain ⟨rest, hcalls⟩ := hf
  have hback : m'.frames.back? = some { f with position := next } := by
    rw [hframes, ← head?_calls, calls_goTo hcalls]
    rfl
  exact ⟨h.room, by rw [hframes, goTo, withFrames_frames, Array.size_modify, h.size_eq], by rw [hback, ← hclosure]; rfl⟩

theorem Machine.Running.step_program {p : Program} (h : m.Running past L a) (hback : m.stack.back? = some (.program p))
    (harity : 0 = p.routine.arity) :
    Exec.step.Gives m (fun _ => m.Accepts ⟨m.nextSerial, p.routine, #[]⟩) m.Refuses := by
  obtain ⟨_, _, ⟨path, source, hcompiled⟩, _⟩ := h.of_program hback
  obtain ⟨name, hat, _⟩ := (makes_of_compileObject hcompiled).first
  refine gives_step (gives_startProgram_of (fun q hq => ?_) fun hne => absurd hback (hne p))
  cases hback.symm.trans hq
  refine Gives.mono (gives_accepts m harity rfl rfl) (fun _ m1 ⟨haccepts, base, hcall⟩ => ?_)
    fun _ _ hrefuses => hrefuses
  exact ⟨_, _, hcall, hat, fun events => haccepts.moves rfl⟩

theorem Session.Summons.gives {action : Exec Unit} (h : s.Summons action m c arguments) (hs : s.Reached)
    (harity : arguments = c.routine.arity) : action.Gives m (fun _ => m.Accepts c) m.Refuses := by
  cases h with
  | @construction m _ _ loading p hload hresult =>
    rw [gives_construction_iff]
    exact .mono (gives_accepts (m.afterLoading loading) harity rfl rfl) (fun _ _ h => h.1) fun _ _ h => h
  | program ha hback => exact ((hs.orderly .some).running ha).step_program hback harity
  | instruction ha hne hback hat hselects =>
    apply gives_step
    unfold Exec.Gives
    rw [startProgram_eq hne]
    exact ⟨_, _, hback, hat, fun events => hselects.execute harity events _⟩

/-! ### How calls lie on the stack -/

theorem Stacked.pairwise (h : Stacked L a calls height) : calls.Pairwise fun f g => g.base < f.base := by
  induction h with
  | outermost => exact List.pairwise_singleton _ _
  | called hrests hlt hholds hrest ih =>
    have hstacked : Stacked L a _ _ := .called hrests hlt hholds hrest
    exact .cons hstacked.base_lt ih

theorem Stacked.outermost_base (h : Stacked L a calls height) (hf : calls.getLast? = some f) : f.base = 0 := by
  induction h with
  | outermost _ hbase _ =>
    cases hf
    exact hbase
  | called _ _ _ _ ih => exact ih (List.getLast?_cons_cons ▸ hf)

/-- The calls lie above each other, the outermost one at the bottom of the stack. -/
structure Machine.Tiered (m : Machine) : Prop where
  first : ∀ f, m.frames[0]? = some f → f.base = 0
  increasing : m.frames.toList.Pairwise fun f g => f.base < g.base
  base_lt : ∀ f ∈ m.frames, f.base < m.stack.size

theorem Machine.Running.tiered (h : m.Running past L a) : m.Tiered := by
  obtain ⟨height, hstacked⟩ := h.stacked
  refine ⟨fun f hf => hstacked.outermost_base ?_, List.pairwise_reverse.mp hstacked.pairwise, fun f hf => ?_⟩
  · rw [Machine.calls, List.getLast?_reverse, List.head?_eq_getElem?, Array.getElem?_toList]
    exact hf
  · exact (h.base_lt (List.mem_reverse.mpr (Array.mem_toList_iff.mpr hf))).1

/-! ### How many there are -/

/-- There are no more calls than there were, or no more than there may be. -/
structure Machine.Limits (m m' : Machine) : Prop where
  settings_eq : m'.settings = m.settings
  size_le : m'.frames.size ≤ max m.frames.size m.settings.maxFrames

theorem Machine.Limits.of_le (hsettings : m'.settings = m.settings) (hframes : m'.frames.size ≤ m.frames.size) :
    m.Limits m' := ⟨hsettings, Nat.le_trans hframes (Nat.le_max_left _ _)⟩

private theorem Machine.lenient_limits : Lenient Limits where
  refl _ := .of_le rfl (Nat.le_refl _)
  trans h h' := by
    refine ⟨h'.settings_eq.trans h.settings_eq, ?_⟩
    have hle := h.size_le
    have hle' := h'.size_le
    rw [h.settings_eq] at hle'
    omega
  stack _ _ := .of_le rfl (Nat.le_refl _)
  call m f _ hroom := ⟨rfl, by rw [Array.size_push]; omega⟩
  frames _ _ hle := .of_le rfl hle
  nextSerial _ _ := .of_le rfl (Nat.le_refl _)
  events _ _ := .of_le rfl (Nat.le_refl _)
  library _ _ _ := .of_le rfl (Nat.le_refl _)
  cells _ _ := .of_le rfl (Nat.le_refl _)
  objects _ _ := .of_le rfl (Nat.le_refl _)
  globals _ _ := .of_le rfl (Nat.le_refl _)
  output _ _ := .of_le rfl (Nat.le_refl _)

def Machine.Limited (m : Machine) : Prop := m.frames.size ≤ max 1 m.settings.maxFrames

theorem Machine.Limited.limits (h : m.Limited) (hlimits : m.Limits m') : m'.Limited := by
  have hle := hlimits.size_le
  unfold Limited at h ⊢
  rw [hlimits.settings_eq]
  omega

private theorem Machine.limited_of_empty (h : m.frames = #[]) : m.Limited := by simp [Limited, h]

namespace Session

theorem Reached.limited (h : s.Reached) : s.machine.Limited := by
  refine (h.induction (P := fun s => s.Reached ∧ s.machine.Limited) ?_ fun s s' ⟨hs, hlimited⟩ hnext => ?_).2
  · exact fun settings source extension => ⟨⟨settings, source, extension, .refl⟩, limited_of_empty rfl⟩
  have hs' : s'.Reached := hs.leads (.single hnext)
  refine ⟨hs', ?_⟩
  have hidle : ∀ {s : Session}, s.Reached → s.activity = .idle → s.machine.frames = #[] :=
    fun h ha => ((h.orderly .some).idle ha).frames_eq
  cases hnext with
  | @script m _ _ _ _ _ henter =>
    -- The outermost call is made however many are allowed, and is the only one.
    cases henter
    have hempty : m.frames = #[] := hidle hs rfl
    simp [Limited, hempty]
  | @construction m _ _ _ loading _ _ _ hstart =>
    exact Limited.limits (m := m.afterLoading loading) hlimited ((lenient_limits.construction _ _).ok hstart)
  | turn _ hturn => exact hlimited.limits ((hturn.keeps lenient_limits).1 _ rfl)
  | shown => exact hlimited
  | notStarted | notLoaded | native | finish | fault => exact limited_of_empty (hidle hs' rfl)

/-- The calls of a machine lie above each other on its stack, no matter what its session has come to, and no
more of them are there than are allowed. A function that gets the right number of arguments is called exactly
if there is room for the call, and otherwise there is no new call. -/
theorem frames_limited {s : Session} (h : s.Reached) :
    s.machine.frames.size ≤ max 1 s.machine.settings.maxFrames ∧ s.machine.Tiered ∧
      ∀ action m c, s.Summons action m c c.routine.arity → action.Gives m (fun _ => m.Accepts c) m.Refuses := by
  refine ⟨h.limited, ?_, fun action m c hsummons => hsummons.gives h rfl⟩
  by_cases ha : s.activity = .idle
  · have hempty := ((h.orderly .some).idle ha).frames_eq
    exact ⟨by simp [hempty], by simp [hempty], by simp [hempty]⟩
  · exact ((h.orderly .some).running ha).tiered

/-- Where no calls are allowed, an object that is asked for is not constructed. -/
theorem frames_limited_to_none : ∃ s action m m', Reached s ∧ s.machine.settings.maxFrames = 0 ∧
    (∃ c, s.Summons action m c 0) ∧ action m = .error (.fault .stackOverflow) m' ∧ m'.frames.size = 0 := by
  obtain ⟨r, hr, harity⟩ : ∃ r, compileObject "/a" "" = .ok r ∧ r.arity = 0 := Computed.intro _ (by cbv)
  obtain ⟨source, loading, hloading, hresult⟩ :=
    Library.exists_loading_of_text "/a" "" "/a" (by cbv)
  obtain ⟨m, hm⟩ : ∃ m, m = (start { maxFrames := 0 } source "").machine := ⟨_, rfl⟩
  have hs : Reached ⟨.idle, m⟩ := hm ▸ ⟨{ maxFrames := 0 }, source, "", .refl⟩
  have hsettings : m.settings.maxFrames = 0 := hm ▸ rfl
  have hload : m.library.load "/a" m.nextSerial (fun file => .error (.noObject file)) = loading := by
    rw [hm]
    exact hloading
  have hsummons := Summons.construction hload (hresult r hr)
  have hgives := (frames_limited hs).2.2 (Exec.construction ⟨0, r⟩) _ ⟨m.nextSerial + 1, r, #[]⟩ (by rwa [harity])
  cases heq : Exec.construction ⟨0, r⟩ (m.afterLoading loading) with
  | ok _ m' =>
    have hroom : m.frames.size < m.settings.maxFrames := (hgives.ok heq).room
    omega
  | error stop m' =>
    obtain ⟨hfull, rfl, hsize⟩ := hgives.error heq
    have hempty : m.frames = #[] := ((hs.orderly .some).idle rfl).frames_eq
    exact ⟨_, _, _, m', hs, hsettings, ⟨_, hsummons⟩, heq, hsize.trans (congrArg Array.size hempty)⟩

end Session

end Mudscript
