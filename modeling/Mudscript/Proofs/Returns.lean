import Mudscript.Proofs.Turns

/-!
# Calls that return

A call of a function leaves the calls below it alone, and of the values below its own it changes only
those of captured variables, through their open cells. This is true of whole runs: whatever a call does,
however many calls it makes in turn and however many objects it has constructed, when it is over there is
one value in the place of the function and its arguments, and its caller goes on where it was.

The invariant says that the calls are those that wait, the call in question, and others above it. Each
turn works on the innermost of them. The slots of a call are above those of the calls below, and a cell
that becomes open is at a slot of the innermost call, so a slot below that has no open cell will not get
one.
-/

namespace Mudscript

open Machine Exec List

variable {past : Moment} {L : Layouts} {a : Activity} {m m' m1 m2 : Machine} {f g : Frame} {rest below : List Frame}
  {i : Instruction} {c : Closure} {base base' : Nat}

/-! ### Programs that are started -/

/-- A machine at work is ready, or has a program on top of the stack, which is then called. -/
theorem Machine.Running.started (h : m.Running past L a) (hstart : startProgram m = .ok () m1) :
    m.Ready past L a ∧ m1 = m ∨ ∃ p : Program, m.stack.back? = some (.program p) ∧ p.IsCompiled ∧
      m1 = ((m.withSerial (m.nextSerial + 1)).withStack
        (m.stack.pop.push (.closure ⟨m.nextSerial, p.routine, #[]⟩))).withFrames
          (m.frames.push ⟨⟨m.nextSerial, p.routine, #[]⟩, 0, m.stack.size - 1⟩) := by
  rcases h with hready | ⟨m0, p, rfl, hp, _⟩
  · have heq := hready.startProgram_eq.symm.trans hstart
    cases heq
    exact .inl ⟨hready, rfl⟩
  · right
    refine ⟨p, by simp, hp, ?_⟩
    refine Gives.ok (Q := fun _ m1 => m1 = _) (E := fun _ _ => True) ?_ hstart
    refine gives_startProgram_of (fun q hq => ?_) fun hne => absurd Array.back?_push (hne p)
    rw [withStack_stack, Array.back?_push] at hq
    cases hq
    refine gives_callClosure trivial trivial fun _ _ => ?_
    simp only [opening, withStack_stack, Array.pop_push, Array.size_push, Nat.sub_zero, Nat.add_sub_cancel]
    rfl

theorem Machine.Running.stacked (h : m.Running past L a) : ∃ height, Stacked L a m.calls height := by
  rcases h with hready | ⟨m0, p, rfl, _, _, hbusy, _⟩
  · obtain ⟨_, hmidway, _⟩ := hready.arranged
    exact ⟨_, hmidway.stacked⟩
  · exact ⟨_, hbusy.midway.stacked⟩

theorem Machine.Running.base_lt (h : m.Running past L a) (hg : g ∈ m.calls) :
    g.base < m.stack.size ∧ ∀ p, m.stack.back? = some (.program p) → g.base + 1 < m.stack.size := by
  rcases h with hready | ⟨m0, p, rfl, _, _, hbusy, _⟩
  · obtain ⟨_, hmidway, _⟩ := hready.arranged
    refine ⟨hmidway.base_add_lt hg, fun p hback => ?_⟩
    rw [Array.back?_eq_getElem?] at hback
    exact (hready.sound.valid_of_getElem? hback).elim
  · have hlt : g.base < m0.stack.size := hbusy.midway.base_add_lt hg
    rw [withStack_stack, Array.size_push]
    exact ⟨by omega, fun _ _ => by omega⟩

/-- What a call that waits for another one will have on the stack when that returns. -/
theorem Stacked.waits {inner : List Frame} {height : Nat} (h : Stacked L a (inner ++ g :: f :: rest) height) :
    f.Rests L (g.base + 1) := by
  generalize hcalls : inner ++ g :: f :: rest = calls at h
  induction h generalizing inner with
  | outermost => simp [append_eq_cons_iff] at hcalls
  | called _ _ _ hrest ih =>
    cases inner with
    | nil =>
      cases hcalls
      exact hrest.rests
    | cons d inner =>
      injection hcalls with _ hcalls
      exact ih hcalls

/-! ### Calls above others -/

theorem Machine.Running.start_above {inner : List Frame} (h : m.Running past L a)
    (hstart : startProgram m = .ok () m1) (hcalls : m.calls = inner ++ g :: below) :
    ∃ inner', m1.calls = inner' ++ g :: below ∧ (inner' = [] → m1 = m) ∧ m1.objects = m.objects ∧
      m1.stack[g.base]? = m.stack[g.base]? := by
  rcases h.started hstart with ⟨_, rfl⟩ | ⟨p, hback, _, rfl⟩
  · exact ⟨inner, hcalls, fun _ => rfl, rfl, rfl⟩
  · have hlt := (h.base_lt (g := g) (hcalls ▸ by simp)).2 p hback
    refine ⟨⟨⟨m.nextSerial, p.routine, #[]⟩, 0, m.stack.size - 1⟩ :: inner, ?_, nofun, rfl, ?_⟩
    · rw [cons_append, ← hcalls]
      exact calls_push
    · show (m.stack.pop.push _)[g.base]? = _
      rw [Array.getElem?_push, Array.getElem?_pop, Array.size_pop, if_neg (by omega), if_pos (by omega)]

/-- What an instruction does to a call: it is one of a call above it, or the call returns, or it goes on. -/
theorem Machine.Fetches.calls_cases {inner : List Frame} (h : m.Fetches past L a m1 f rest i)
    (hperforms : m1.Performs f i (.ok () m')) (hcalls : m1.calls = inner ++ g :: below) :
    inner ≠ [] ∧ g ∈ rest ∧ (∃ inner', m'.calls = inner' ++ g :: below) ∨
      inner = [] ∧ f = g ∧ rest = below ∧ (i = .ret ∧ m'.calls = below ∨
        i ≠ .ret ∧ ∃ entered target, m'.calls = entered ++ { g with position := target } :: below ∧
          i.Continues (g.position + i.size) target) := by
  have heq := h.calls_eq.symm.trans hcalls
  cases inner with
  | nil =>
    obtain ⟨rfl, rfl⟩ := List.cons.inj heq
    refine .inr ⟨rfl, rfl, rfl, ?_⟩
    by_cases hret : i = .ret
    · subst hret
      exact .inl ⟨rfl, (hperforms.returns h.calls_eq).1⟩
    · obtain ⟨entered, target, hcalls', hcontinues, _⟩ := hperforms.advances h.calls_eq hret
      exact .inr ⟨hret, entered, target, hcalls', hcontinues⟩
  | cons d inner =>
    obtain ⟨rfl, rfl⟩ := List.cons.inj heq
    refine .inl ⟨nofun, by simp, ?_⟩
    by_cases hret : i = .ret
    · subst hret
      exact ⟨inner, (hperforms.returns h.calls_eq).1⟩
    · obtain ⟨entered, target, hcalls', _, _⟩ := hperforms.advances h.calls_eq hret
      exact ⟨entered ++ { f with position := target } :: inner, by rw [hcalls']; simp⟩

/-! ### What a call leaves alone -/

/-- Below a height, slots without an open cell hold what they held, and no other cell is open. -/
structure Machine.Shelters (base : Nat) (m m' : Machine) : Prop where
  slots : ∀ slot < base, (∀ id, (slot, id) ∉ m.cells.opened) → m'.stack[slot]? = m.stack[slot]?
  opened : ∀ slot < base, ∀ id, (slot, id) ∈ m'.cells.opened → (slot, id) ∈ m.cells.opened

namespace Machine.Shelters

theorem refl (base : Nat) (m : Machine) : m.Shelters base m := ⟨fun _ _ _ => rfl, fun _ _ _ hmem => hmem⟩

theorem trans (h : Shelters base m m1) (h' : Shelters base m1 m2) : Shelters base m m2 := by
  constructor
  · intro slot hslot hfree
    have hfree' : ∀ id, (slot, id) ∉ m1.cells.opened := fun id hmem => hfree id (h.opened slot hslot id hmem)
    exact (h'.slots slot hslot hfree').trans (h.slots slot hslot hfree)
  · exact fun slot hslot id hmem => h.opened slot hslot id (h'.opened slot hslot id hmem)

theorem mono (h : Shelters base m m1) (hle : base' ≤ base) : Shelters base' m m1 :=
  ⟨fun slot hslot => h.slots slot (by omega), fun slot hslot => h.opened slot (by omega)⟩

end Machine.Shelters

theorem Machine.Running.shelters (h : m.Running past L a) (hstart : startProgram m = .ok () m1)
    (hbase : base < m.stack.size) : m.Shelters base m1 := by
  rcases h.started hstart with ⟨_, rfl⟩ | ⟨p, _, _, rfl⟩
  · exact .refl base m1
  · refine ⟨fun slot hslot _ => ?_, fun _ _ _ hmem => hmem⟩
    show (m.stack.pop.push _)[slot]? = m.stack[slot]?
    rw [Array.getElem?_push, Array.getElem?_pop, Array.size_pop, if_neg (by omega), if_pos (by omega)]

theorem Machine.Fetches.below_eq {slot : Nat} (h : m.Fetches past L a m1 f rest .ret)
    (hperforms : m1.Performs f .ret (.ok () m')) (hslot : slot < f.base) : m'.stack[slot]? = m1.stack[slot]? := by
  obtain ⟨_, hstack, _⟩ := hperforms.returns h.calls_eq
  obtain ⟨_, hmidway, _⟩ := h.ready.arranged
  have hlt := hmidway.base_lt f rest h.calls_eq
  rw [hstack, Array.getElem?_push, Array.size_shrink, Array.size_pop, if_neg (by omega),
    getElem?_shrink hslot, Array.getElem?_pop, if_pos (by omega)]

theorem Machine.Fetches.shelters (h : m.Fetches past L a m1 f rest i) (hperforms : m1.Performs f i (.ok () m')) :
    m1.Shelters f.base m' := by
  have hsound := h.ready.sound
  constructor
  · intro slot hslot hfree
    by_cases hret : i = .ret
    · subst hret
      exact h.below_eq hperforms hslot
    · have hlt := h.ready.base_add_taken_lt h.calls_eq h.instruction hret (h.calls_eq ▸ mem_cons_self)
      refine hperforms.slot_eq hsound.cells ⟨hret, by omega, fun k _ => ?_, fun _ _ => hfree _, fun _ _ => ?_⟩
      all_goals omega
  · intro slot hslot id hmem
    rcases hperforms.opened hsound hmem with hold | ⟨c, _, _, heq⟩
    · exact hold
    · omega

/-- A call of a function with its slot 0 at a base is under way, above calls that wait for it. Below the base
there is what there was in another machine. -/
structure Machine.Hosts (c : Closure) (base : Nat) (below : List Frame) (m m' : Machine) : Prop where
  calls : ∃ inner position, m'.calls = inner ++ ⟨c, position, base⟩ :: below
  shelters : m.Shelters base m'

/-- A call with its slot 0 at a base has returned to the calls that waited for it. -/
structure Machine.Resumes (base : Nat) (below : List Frame) (v : Value) (m m' : Machine) : Prop where
  calls_eq : m'.calls = below
  size_eq : m'.stack.size = base + 1
  result : m'.stack[base]? = some v
  shelters : m.Shelters base m'

def Machine.AtReturn (m : Machine) (v : Value) : Prop :=
  ∃ f, m.frames.back? = some f ∧ f.code.At f.position .ret ∧ m.stack.back? = some v

theorem Machine.Hosts.turn (h : Hosts c base below m m1) (hrunning : m1.Running past L a)
    (hturn : Session.Turn m1 (.ok () m')) : Hosts c base below m m' ∨
      ∃ v, m1.AtReturn v ∧ m1.frames.size = below.length + 1 ∧ Resumes base below v m m' := by
  obtain ⟨m2, f, rest, i, hfetches, hperforms⟩ := hturn.fetches hrunning
  obtain ⟨inner, position, hcalls⟩ := h.calls
  have hbase : base < m1.stack.size :=
    (hrunning.base_lt (g := ⟨c, position, base⟩) (hcalls ▸ by simp)).1
  have hstarted : m.Shelters base m2 := h.shelters.trans (hrunning.shelters hfetches.started hbase)
  obtain ⟨inner', hcalls', hsame, _⟩ := hrunning.start_above hfetches.started hcalls
  have hmem : ⟨c, position, base⟩ ∈ m2.calls := by
    rw [hcalls']
    simp
  have hle : base ≤ f.base := by
    obtain ⟨_, hmidway, _⟩ := hfetches.ready.arranged
    exact hmidway.base_le hfetches.calls_eq hmem
  have hshelters : m.Shelters base m' := hstarted.trans ((hfetches.shelters hperforms).mono hle)
  rcases hfetches.calls_cases hperforms hcalls' with ⟨_, _, inner'', hcalls''⟩ |
    ⟨rfl, rfl, rfl, ⟨rfl, hcalls''⟩ | ⟨_, entered, target, hcalls'', _⟩⟩
  · exact .inl ⟨⟨inner'', position, hcalls''⟩, hshelters⟩
  · right
    obtain rfl := hsame rfl
    obtain ⟨_, hstack, _⟩ := hperforms.returns hfetches.calls_eq
    have hback : m2.stack.back? = some (m2.stack.back?.getD .nil) := by
      rw [Array.back?_eq_getElem?, Array.getElem?_eq_getElem (by omega)]
      rfl
    have hsize : (m2.stack.pop.shrink base).size = base := by
      rw [Array.size_shrink, Array.size_pop]
      omega
    refine ⟨_, ⟨_, hfetches.back, hfetches.instruction, hback⟩, ?_, hcalls'', ?_, ?_, hshelters⟩
    · have hlength := congrArg List.length hfetches.calls_eq
      simpa [Machine.calls] using hlength
    · rw [hstack, Array.size_push, hsize]
    · rw [hstack, Array.getElem?_push, hsize, if_pos rfl]
  · exact .inl ⟨⟨entered, target, hcalls''⟩, hshelters⟩

/-! ### Runs of a call -/

theorem Exec.step_of_steps {n : Nat} (h : steps n m = .ok () m1) (h' : steps (n + 1) m = .ok () m2) :
    step m1 = .ok () m2 := by
  induction n generalizing m with
  | zero =>
    cases h
    have hone : (step >>= fun _ => pure ()) m1 = .ok () m2 := h'
    rw [bind_pure_unit] at hone
    exact hone
  | succ n ih =>
    have hstep : step.Gives m (fun _ m' => steps n m' = .ok () m1 ∧ steps (n + 1) m' = .ok () m2) fun _ _ => False := by
      have hfirst : (step >>= fun _ => steps n) m = .ok () m1 := h
      have hsecond : (step >>= fun _ => steps (n + 1)) m = .ok () m2 := h'
      unfold Gives
      cases hresult : step m with
      | ok _ m' =>
        simp only [bind, EStateM.bind, hresult] at hfirst hsecond
        exact ⟨hfirst, hsecond⟩
      | error stop m' => simp [bind, EStateM.bind, hresult] at hfirst
    unfold Gives at hstep
    split at hstep
    · exact ih hstep.1 hstep.2
    · exact hstep.elim

namespace Session

/-- A run goes on for a number of turns. Before each of them more than so many calls are under way. -/
inductive Proceeds (depth : Nat) (m : Machine) : Machine → Prop
  | refl : Proceeds depth m m
  | turn {m' m''} : Proceeds depth m m' → depth < m'.frames.size → Turn m' (.ok () m'') → Proceeds depth m m''
  | shown {m' : Machine} (output : String) (events : Array Event) : Proceeds depth m m' →
      Proceeds depth m { m' with output, events }

variable {depth : Nat}

theorem Proceeds.leads (h : Proceeds depth m m') (ha : a ≠ .idle) : Leads ⟨a, m⟩ ⟨a, m'⟩ := by
  induction h with
  | refl => exact .refl
  | turn _ _ hturn ih => exact ih.tail (.turn ha hturn)
  | shown output events _ ih => exact ih.tail (.shown output events)

theorem Proceeds.of_steps {n : Nat} (hdepth : ∀ k < n, ∃ m1, Exec.steps k m = .ok () m1 ∧ depth < m1.frames.size)
    (hsteps : Exec.steps n m = .ok () m') : Proceeds depth m m' := by
  induction n generalizing m' with
  | zero =>
    cases hsteps
    exact .refl
  | succ n ih =>
    obtain ⟨m1, hm1, hlt⟩ := hdepth n (Nat.lt_succ_self n)
    have hbefore := ih (fun k hk => hdepth k (Nat.lt_succ_of_lt hk)) hm1
    refine hbefore.turn hlt (.step ?_ fun _ _ => nofun)
    exact Exec.step_of_steps hm1 hsteps

theorem Proceeds.hosts {m0 : Machine} (h : Proceeds below.length m m') (hm : Reached ⟨a, m⟩) (ha : a ≠ .idle)
    (hcall : m0.Hosts c base below m) : m0.Hosts c base below m' ∨
      ∃ v m1, Proceeds below.length m m1 ∧ m1.AtReturn v ∧ m1.frames.size = below.length + 1 ∧
        m0.Resumes base below v m' := by
  induction h with
  | refl => exact .inl hcall
  | @turn m1 m2 hproceeds hdepth hturn ih =>
    rcases ih with hhosts | ⟨v, m3, _, _, _, hresumes⟩
    · have hrunning := ((hm.leads (hproceeds.leads ha)).orderly .some).running ha
      rcases hhosts.turn hrunning hturn with hhosts' | ⟨v, hreturn, hsize, hresumes⟩
      · exact .inl hhosts'
      · exact .inr ⟨v, m1, hproceeds, hreturn, hsize, hresumes⟩
    · -- The call has returned, so there are not that many calls.
      have hlength := congrArg List.length hresumes.calls_eq
      simp only [calls, length_reverse, Array.length_toList] at hlength
      omega
  | shown output events _ ih =>
    rcases ih with hhosts | ⟨v, m3, hproceeds, hreturn, hsize, hresumes⟩
    · exact .inl ⟨hhosts.calls, hhosts.shelters.slots, hhosts.shelters.opened⟩
    · refine .inr ⟨v, m3, hproceeds, hreturn, hsize, hresumes.calls_eq, hresumes.size_eq, hresumes.result, ?_⟩
      exact ⟨hresumes.shelters.slots, hresumes.shelters.opened⟩

end Session

/-! ### Where calls begin -/

namespace Session

/-- With its next turn a machine calls a function of the language: by an instruction, or because there is a
program on top of the stack. Given are the calls that wait from then on and the slot 0 of the new one. -/
inductive Calls (m : Machine) : Array Frame → Nat → Machine → Prop
  | instruction {f i count m'} :
      (∀ p, m.stack.back? ≠ some (.program p)) → m.frames.back? = some f → f.code.At f.position i →
      i.called? = some count → Turn m (.ok () m') → m.frames.size < m'.frames.size →
      Calls m (m.goTo (f.position + i.size)).frames (m.stack.size - count) m'
  | program {p m'} : m.stack.back? = some (.program p) → Turn m (.ok () m') → Calls m m.frames (m.stack.size - 1) m'

theorem hosts_of_instruction {count : Nat} (h : m.Running past L a)
    (hback : ∀ p, m.stack.back? ≠ some (.program p)) (hf : m.frames.back? = some f)
    (hat : f.code.At f.position i) (hi : i.called? = some count) (hturn : Turn m (.ok () m'))
    (hsize : m.frames.size < m'.frames.size) :
    ∃ c, m.Hosts c (m.stack.size - count) (m.goTo (f.position + i.size)).calls m' := by
  obtain ⟨m1, f', rest, j, hfetches, hperforms⟩ := hturn.fetches h
  obtain ⟨hready, rfl⟩ : m.Ready past L a ∧ m1 = m := by
    rcases h.started hfetches.started with hsame | ⟨p, hp, _⟩
    · exact hsame
    · exact absurd hp (hback p)
  obtain rfl : f' = f := Option.some.inj (hfetches.back.symm.trans hf)
  obtain rfl : j = i := hfetches.instruction.unique hat
  -- What all three instructions have in common.
  obtain ⟨htaken, hgiven, hfar, hmoves, hcells, hret⟩ : j.taken = count ∧ j.given = 1 ∧
      (∀ next, j.far? next = none) ∧ j.movesSlots = false ∧ j.changesCells = false ∧ j ≠ .ret := by
    cases j with
    | call _ | invoke _ _ | superInvoke _ _ =>
      cases hi
      exact ⟨rfl, rfl, fun _ => rfl, rfl, rfl, nofun⟩
    | _ => cases hi
  obtain ⟨entered, target, hcalls, htarget, _⟩ := hperforms.advances hfetches.calls_eq hret
  have hnext : target = f'.position + j.size := by
    rcases htarget with hnear | hfar'
    · exact Instruction.near?_eq hnear
    · rw [hfar] at hfar'
      cases hfar'
  subst hnext
  -- The call right above the one that waits.
  rcases eq_nil_or_concat entered with rfl | ⟨inner, g, rfl⟩
  · have hlength := congrArg List.length hcalls
    have hlength' := congrArg List.length hfetches.calls_eq
    simp only [Machine.calls, length_reverse, Array.length_toList, nil_append, length_cons]
      at hlength hlength'
    omega
  rw [concat_eq_append, append_assoc, singleton_append] at hcalls
  obtain ⟨height, hstacked⟩ := ((hturn.safe h).1 m' rfl).stacked
  rw [hcalls] at hstacked
  have hheight := hstacked.waits.height_eq
  have hsize' := hready.arranged.size_eq hfetches.calls_eq
  obtain ⟨_, hflows⟩ := (hready.arranged.layout hfetches.calls_eq).continues hfetches.instruction htarget
  have hshape : (L.shapeOf { f' with position := f'.position + j.size }).height
      = (L.shapeOf f').height - j.taken + j.given := hflows.height_eq
  have htaken' := hready.base_add_taken_lt hfetches.calls_eq hat hret (hfetches.calls_eq ▸ mem_cons_self)
  have hbase : g.base = m1.stack.size - count := by
    change g.base + 1 = f'.base + _ at hheight
    omega
  refine ⟨g.closure, ⟨⟨inner, g.position, ?_⟩, fun slot hslot _ => ?_, fun slot _ id hmem => ?_⟩⟩
  · rw [hcalls, calls_goTo hfetches.calls_eq, ← hbase]
  · exact (hperforms.spares hmoves).below slot (by omega)
  · rw [← hperforms.cells_eq hcells]
    exact hmem

theorem Turn.fetches_program {p : Program} (hturn : Turn m (.ok () m')) (h : m.Running past L a)
    (hback : m.stack.back? = some (.program p)) :
    ∃ m1 i, m.Fetches past L a m1 ⟨⟨m.nextSerial, p.routine, #[]⟩, 0, m.stack.size - 1⟩ m.calls i ∧
      m1.Performs ⟨⟨m.nextSerial, p.routine, #[]⟩, 0, m.stack.size - 1⟩ i (.ok () m') ∧ i ≠ .ret ∧
      p.routine.kind = .object ∧ m1.objects = m.objects := by
  obtain ⟨m1, f, rest, i, hfetches, hperforms⟩ := hturn.fetches h
  rcases h.started hfetches.started with ⟨hready, rfl⟩ | ⟨q, hq, ⟨path, source, hcompiled⟩, heq⟩
  · rw [Array.back?_eq_getElem?] at hback
    exact (hready.sound.valid_of_getElem? hback).elim
  obtain rfl : q = p := by
    rw [hback] at hq
    cases hq
    rfl
  have hobject := (isUnit_of_compileObject hcompiled).kind_eq
  have hcalls : m1.calls = ⟨⟨m.nextSerial, q.routine, #[]⟩, 0, m.stack.size - 1⟩ :: m.calls := by
    rw [heq]
    exact calls_push
  obtain ⟨rfl, rfl⟩ := List.cons.inj (hfetches.calls_eq.symm.trans hcalls)
  refine ⟨m1, i, hfetches, hperforms, ?_, hobject, by rw [heq]; rfl⟩
  -- The first instruction of the unit is the one that makes the object.
  rintro rfl
  obtain ⟨name, hfirst⟩ := (hfetches.ready.arranged.layout hfetches.calls_eq).constructs hobject
  cases hfetches.instruction.unique hfirst

theorem hosts_of_program {p : Program} (h : m.Running past L a) (hback : m.stack.back? = some (.program p))
    (hturn : Turn m (.ok () m')) : m.Hosts ⟨m.nextSerial, p.routine, #[]⟩ (m.stack.size - 1) m.calls m' := by
  obtain ⟨m1, i, hfetches, hperforms, hret, _⟩ := hturn.fetches_program h hback
  obtain ⟨entered, target, hcalls', _, _⟩ := hperforms.advances hfetches.calls_eq hret
  refine ⟨⟨entered, target, hcalls'⟩, ?_⟩
  have hsize : 0 < m.stack.size := by
    rw [Array.back?_eq_getElem?] at hback
    have := (Array.getElem?_eq_some_iff.mp hback).1
    omega
  exact (h.shelters hfetches.started (by omega)).trans (hfetches.shelters hperforms)

/-- A function that is called, by an instruction or as the program of an object, and returns, leaves one value
in place of itself and its arguments: the one that was on top of the stack when it returned. The calls below
are what they were when the call was made, and so is what is below on the stack, but for the slots to which
an open cell pointed. -/
theorem call_framed {a : Activity} {m m' m'' : Machine} {frames : Array Frame} {base : Nat}
    (h : Reached ⟨a, m⟩) (ha : a ≠ .idle) (hcall : Calls m frames base m')
    (hproceeds : Proceeds frames.size m' m'') (hreturned : m''.frames.size ≤ frames.size) :
    m''.frames = frames ∧ m''.stack.size = base + 1 ∧
      (∀ slot < base, (∀ id : CellId, m.cells.all[id]? ≠ some (.opened slot)) →
        m''.stack[slot]? = m.stack[slot]?) ∧
      ∃ v m1, Proceeds frames.size m' m1 ∧ m1.frames.size = frames.size + 1 ∧ m1.AtReturn v ∧
        m''.stack[base]? = some v := by
  have hrunning := (h.orderly .some).running ha
  have hcells := (h.orderly .some).consistent
  obtain ⟨c, hhosts, hnext⟩ : ∃ c, m.Hosts c base frames.toList.reverse m' ∧ Next ⟨a, m⟩ ⟨a, m'⟩ := by
    cases hcall with
    | instruction hback hf hat hi hturn hsize =>
      obtain ⟨c, hhosts⟩ := hosts_of_instruction hrunning hback hf hat hi hturn hsize
      exact ⟨c, hhosts, .turn ha hturn⟩
    | program hback hturn => exact ⟨_, hosts_of_program hrunning hback hturn, .turn ha hturn⟩
  have hlength : frames.toList.reverse.length = frames.size := by simp
  rw [← hlength] at hproceeds
  have hreached : Reached ⟨a, m'⟩ := h.leads (.single hnext)
  rcases hproceeds.hosts hreached ha hhosts with hunder | ⟨v, m1, hproceeds1, hreturn, hsize1, hresumes⟩
  · obtain ⟨inner, position, hcalls⟩ := hunder.calls
    have hlength' := congrArg List.length hcalls
    simp only [calls, length_reverse, Array.length_toList, length_append, length_cons] at hlength'
    omega
  · rw [hlength] at hproceeds1 hsize1
    refine ⟨?_, hresumes.size_eq, fun slot hslot hfree => ?_, v, m1, hproceeds1, hsize1, hreturn, hresumes.result⟩
    · have hcalls := reverse_injective hresumes.calls_eq
      exact Array.toList_inj.mp hcalls
    · apply hresumes.shelters.slots slot hslot
      intro id hmem
      exact hfree id ((hcells.opened_iff slot id).mp hmem)

set_option maxRecDepth 20000 in
set_option synthInstance.maxSize 1000 in
set_option synthInstance.maxHeartbeats 200000 in
/-- A script with a function that assigns to a captured local, up to the call, and the call. -/
theorem exists_assigning_call : ∃ r, compileScript "main" "{var n=nil;var f=function(){n=true;};f();}" = .ok r ∧
      ∃ m, (Exec.enter r *> Exec.steps 3) (start {} (.memory ∅) "").machine = .ok () m ∧ m.stack.size = 4 ∧
        m.stack.back?.map Value.type = some .function ∧ m.cells.opened.map Prod.fst = [1] ∧
        m.frames.back?.map (fun f => f.code.instructionAt? f.position) = some (some (.call 0)) ∧
        m.frames.size = 1 ∧ m.stack[1]?.map Value.type = some .nil ∧
      ∃ m', Exec.step m = .ok () m' ∧ m'.frames.size = 2 ∧
        (∀ k < 5, ∃ m1, Exec.steps k m' = .ok () m1 ∧ 1 < m1.frames.size) ∧
      ∃ m'', Exec.steps 5 m' = .ok () m'' ∧ m''.frames.size = 1 ∧ m''.stack[1]?.map Value.type = some .bool :=
  Computed.intro _ (by cbv)

/-- A function that assigns to a captured local of its caller: when it returns, the other local and the calls
are what they were. -/
theorem call_framed_capture :
    ∃ m m' m'' frames, Reached ⟨.script, m⟩ ∧ Calls m frames 3 m' ∧ Proceeds frames.size m' m'' ∧
      m''.frames = frames ∧ m''.stack.size = 4 ∧ m''.stack[2]? = m.stack[2]? ∧
      m.stack[1]?.map Value.type = some .nil ∧ m''.stack[1]?.map Value.type = some .bool := by
  obtain ⟨r, hr, m, hm, hsize, htype, hopened, hcall, hframes, hnil, m', hm', hframes', hinside, m'', hm'', hframes'',
    hbool⟩ := exists_assigning_call
  -- The machine is one of a session, and about to call the function.
  have hbusy : Activity.script ≠ .idle := nofun
  have hreached : Reached ⟨.script, m⟩ := (reached_start _).script hr hm
  have hback : ∀ p, m.stack.back? ≠ some (.program p) := by
    intro p hp
    rw [hp] at htype
    cases htype
  have hrunning := (hreached.orderly .some).running hbusy
  have hturn : Turn m (.ok () m') := .step hm' fun _ _ => nofun
  obtain ⟨m1, f, rest, i, hfetches, _⟩ := hturn.fetches hrunning
  obtain ⟨_, rfl⟩ : m.Ready _ _ _ ∧ m1 = m := by
    rcases hrunning.started hfetches.started with hsame | ⟨p, hp, _⟩
    · exact hsame
    · exact absurd hp (hback p)
  obtain rfl : i = .call 0 := by
    rw [hfetches.back, Option.map_some, hfetches.instruction.instruction] at hcall
    exact Option.some.inj (Option.some.inj hcall)
  have hcalls : Calls m1 (m1.goTo (f.position + 2)).frames (m1.stack.size - 1) m' :=
    .instruction hback hfetches.back hfetches.instruction rfl hturn (by omega)
  have hdepth : (m1.goTo (f.position + 2)).frames.size = 1 := by
    show (m1.frames.modify _ _).size = 1
    rw [Array.size_modify, hframes]
  have hproceeds : Proceeds (m1.goTo (f.position + 2)).frames.size m' m'' := by
    rw [hdepth]
    exact .of_steps hinside hm''
  have hframed := call_framed hreached hbusy hcalls hproceeds (by omega)
  rw [hsize] at hcalls hframed
  obtain ⟨hsame, hsize'', hslots, _⟩ := hframed
  refine ⟨m1, m', m'', _, hreached, hcalls, hproceeds, hsame, hsize'', hslots 2 (by omega) ?_, hnil, hbool⟩
  intro id hid
  have hmem := ((hreached.orderly .some).consistent.opened_iff 2 id).mpr hid
  have hfst := mem_map_of_mem (f := Prod.fst) hmem
  rw [hopened] at hfst
  simp at hfst

end Session

end Mudscript
