import Mudscript.Proofs.Captured
import Mudscript.Proofs.Lineage

/-!
# Turns

A turn of a machine at work starts the program on top of the stack, if there is one, executes the
instruction that the innermost call is at, and takes the answer if the instruction has asked for
something. This module says once what such a turn can do to the calls, to the slots of the stack and to
the open cells.

All instructions but one let the innermost call go on, and may put others on top of it. Returning is the
one that takes a call away.
-/

namespace Mudscript

open Machine Exec

variable {Q : Machine → Prop}

/-- An instruction of the innermost call is executed, and what it asks for is answered. -/
inductive Machine.Performs (m : Machine) (f : Frame) (i : Instruction) :
    EStateM.Result Stop Machine Unit → Prop
  | alone {events result} :
      execute f (f.position + i.size) i (({ m with events } : Machine).goTo (f.position + i.size)) = result →
      (∀ r m', result ≠ .error (.request r) m') → Performs m f i result
  | answered {events r m1 output action result} :
      execute f (f.position + i.size) i (({ m with events } : Machine).goTo (f.position + i.size))
        = .error (.request r) m1 → Session.Answers r action → action { m1 with output } = result → Performs m f i result

/-- Where a turn of a machine begins, once a program has been started if there was one. -/
structure Machine.Fetches (past : Moment) (L : Layouts) (a : Activity) (m m1 : Machine) (f : Frame)
    (rest : List Frame) (i : Instruction) : Prop where
  started : startProgram m = .ok () m1
  ready : m1.Ready past L a
  calls_eq : m1.calls = f :: rest
  instruction : f.code.At f.position i

variable {past : Moment} {L : Layouts} {a : Activity} {m m' m1 : Machine} {f g : Frame} {rest : List Frame}
  {i : Instruction} {slot : Nat} {id : CellId} {result : EStateM.Result Stop Machine Unit}

theorem Machine.Fetches.back (h : m.Fetches past L a m1 f rest i) : m1.frames.back? = some f := by
  rw [← head?_calls, h.calls_eq]
  rfl

/-- Starting a program can fail, and does not ask for anything. The calls are still the same then. -/
theorem Exec.startProgram_stop (m : Machine) : startProgram.Gives m (fun _ _ => True)
    fun stop m' => (∃ f, stop = .fault f) ∧ m'.frames = m.frames ∧ ∃ p, m.stack.back? = some (.program p) :=
  gives_startProgram_of (fun p hback => gives_callClosure ⟨⟨_, rfl⟩, rfl, p, hback⟩ ⟨⟨_, rfl⟩, rfl, p, hback⟩
    fun _ _ => trivial) fun _ => trivial

/-- A turn fails to start a program, or it executes an instruction. -/
theorem Session.Turn.performs (hturn : Session.Turn m result) (h : m.Running past L a) :
    (∃ stop m', startProgram m = .error stop m' ∧ result = .error stop m') ∨
      ∃ m1 f rest i, m.Fetches past L a m1 f rest i ∧ m1.Performs f i result := by
  -- What a step does, without the answer.
  have hstep : Exec.step.Gives m
      (fun u m' => ∃ m1 f rest i events, m.Fetches past L a m1 f rest i ∧
        execute f (f.position + i.size) i (({ m1 with events } : Machine).goTo (f.position + i.size)) = .ok u m')
      fun stop m' => (startProgram m = .error stop m' ∧ ∀ r, stop ≠ .request r) ∨
        ∃ m1 f rest i events, m.Fetches past L a m1 f rest i ∧
          execute f (f.position + i.size) i (({ m1 with events } : Machine).goTo (f.position + i.size))
            = .error stop m' := by
    have hstart := (gives_startProgram h).and (Gives.self (x := startProgram) (m := m))
    apply gives_step
    apply (hstart.and (startProgram_stop m)).mono
    · intro _ m1 ⟨⟨hready, hstarted⟩, _⟩
      obtain ⟨f, rest, i, hcalls, hback, hat⟩ := hready.exists_at
      refine ⟨f, i, hback, hat, fun events => Gives.self.mono ?_ ?_⟩
      · exact fun u m' heq => ⟨m1, f, rest, i, events, ⟨hstarted, hready, hcalls, hat⟩, heq⟩
      · exact fun stop m' heq => .inr ⟨m1, f, rest, i, events, ⟨hstarted, hready, hcalls, hat⟩, heq⟩
    · rintro stop m' ⟨⟨_, heq⟩, ⟨fault, rfl⟩, _⟩
      exact .inl ⟨heq, fun _ => nofun⟩
  cases hturn with
  | step heq hne =>
    cases result with
    | ok u m' =>
      obtain ⟨m1, f, rest, i, events, hfetches, hexecute⟩ := hstep.ok heq
      exact .inr ⟨m1, f, rest, i, hfetches, .alone hexecute hne⟩
    | error stop m' =>
      rcases hstep.error heq with ⟨hstart, _⟩ | ⟨m1, f, rest, i, events, hfetches, hexecute⟩
      · exact .inl ⟨stop, m', hstart, rfl⟩
      · exact .inr ⟨m1, f, rest, i, hfetches, .alone hexecute hne⟩
  | @answer r _ _ _ _ heq haction hresult =>
    rcases hstep.error heq with ⟨_, hne⟩ | ⟨m1, f, rest, i, events, hfetches, hexecute⟩
    · exact absurd rfl (hne r)
    · exact .inr ⟨m1, f, rest, i, hfetches, .answered hexecute haction hresult⟩

theorem Session.Turn.fetches (hturn : Session.Turn m (.ok () m')) (h : m.Running past L a) :
    ∃ m1 f rest i, m.Fetches past L a m1 f rest i ∧ m1.Performs f i (.ok () m') := by
  rcases hturn.performs h with ⟨stop, m'', _, heq⟩ | hperforms
  · cases heq
  · exact hperforms

/-- What is true after an instruction if it goes on, and what is true when it asks for something, so that it
is true after the answer. -/
theorem Machine.Performs.gives {E : Request → Machine → Prop} (h : m.Performs f i (.ok () m'))
    (hexecute : ∀ events, (execute f (f.position + i.size) i).Gives
      (({ m with events } : Machine).goTo (f.position + i.size)) (fun _ => Q)
      fun stop m1 => ∀ r, stop = .request r → E r m1)
    (hanswer : ∀ r m1 output action, E r m1 → Session.Answers r action →
      action.Gives { m1 with output } (fun _ => Q) fun _ _ => True) : Q m' := by
  cases h with
  | alone heq _ => exact (hexecute _).ok heq
  | answered heq haction hresult =>
    exact (hanswer _ _ _ _ ((hexecute _).error heq _ rfl) haction).ok hresult

theorem Machine.Performs.gives_alone (h : m.Performs f i (.ok () m'))
    (hexecute : ∀ events, (execute f (f.position + i.size) i).Gives
      (({ m with events } : Machine).goTo (f.position + i.size)) (fun _ => Q)
      fun stop _ => ∀ r, stop ≠ .request r) : Q m' := by
  apply h.gives (E := fun _ _ => False)
  · exact fun events => (hexecute events).mono (fun _ _ hQ => hQ) fun stop _ hne r heq => hne r heq
  · exact fun _ _ _ _ hfalse => hfalse.elim

theorem Machine.Performs.keeps {R : Nat → Machine → Machine → Prop} {k : Nat} (h : m.Performs f i (.ok () m'))
    (hR : Graded R) (hout : ∀ (m : Machine) output, R 0 m { m with output })
    (hexecute : ∀ m1, KeepsFrom (R k) m1 (execute f (f.position + i.size) i)) :
    ∃ events, R k (({ m with events } : Machine).goTo (f.position + i.size)) m' := by
  cases h with
  | alone heq _ => exact ⟨_, (hexecute _).ok heq⟩
  | answered heq haction hresult =>
    obtain ⟨hasked, hneeded⟩ := (hexecute _).error heq
    have hanswered := (hR.answer haction hneeded _).ok hresult
    exact ⟨_, hR.trans hasked (hR.trans (hout _ _) hanswered)⟩

/-! ### Calls -/

theorem Machine.coarse_frames : Coarse fun m m' => m'.frames = m.frames where
  refl _ := rfl
  trans h h' := h'.trans h
  stack _ _ := rfl
  nextSerial _ _ := rfl
  events _ _ := rfl
  library _ _ _ := rfl

theorem Exec.execute_frames {next : Nat} (hcalled : i.called? = none) (hpath : i.leavesPath = false) :
    KeepsFrom (fun m m' => m'.frames = m.frames) m (execute f next i) :=
  coarse_frames.execute (.inr hcalled) (fun _ _ => rfl) (fun _ _ _ _ => rfl) (fun _ _ _ _ => rfl) (.inr hpath)
    (.inl fun _ _ => rfl) (.inl fun _ _ => rfl) (.inl fun _ _ => rfl)

theorem Instruction.near?_of_path (hi : i.leavesPath = false) (next : Nat) : i.near? next = some next := by
  cases i with
  | jump _ | jumpIfFalse _ | loop _ | ret => cases hi
  | _ => rfl

/-- The innermost call goes on to where the instruction says, and new calls are on top of it if it makes some. -/
def Machine.Advances (f : Frame) (rest : List Frame) (i : Instruction) (m' : Machine) : Prop :=
  ∃ entered target, m'.calls = entered ++ { f with position := target } :: rest ∧
    i.Continues (f.position + i.size) target ∧ (∀ g ∈ entered, g.position = 0) ∧ (i.called? = none → entered = [])

theorem Machine.Performs.advances (h : m.Performs f i (.ok () m')) (hcalls : m.calls = f :: rest)
    (hret : i ≠ .ret) : Advances f rest i m' := by
  have hgone : ∀ (events : Array Event) target,
      (({ m with events } : Machine).goTo target).calls = { f with position := target } :: rest :=
    fun events target => calls_goTo (m := { m with events }) hcalls target
  by_cases hpath : i.leavesPath = false
  · have hnear := Instruction.near?_of_path hpath (f.position + i.size)
    by_cases hcalled : i.called? = none
    · obtain ⟨events, hframes⟩ := h.keeps (k := 0) coarse_frames.graded (fun _ _ => rfl)
        fun _ => execute_frames hcalled hpath
      refine ⟨[], _, ?_, .inl hnear, nofun, fun _ => rfl⟩
      rw [calls, hframes, ← calls, hgone]
      rfl
    · obtain ⟨events, entered, hcalls', hentered⟩ := h.keeps (k := 0) shortsighted_deepens.graded
        (fun _ _ => .of_eq rfl) fun _ => shortsighted_deepens.execute (.inl shortsighted_deepens)
          (fun _ _ => .of_eq rfl) (fun _ _ _ _ => .of_eq rfl) (fun _ _ _ _ => .of_eq rfl) (.inr hpath)
          (.inl fun _ _ => .of_eq rfl) (.inl fun _ _ => .of_eq rfl) (.inl fun _ _ => .of_eq rfl)
      rw [hgone] at hcalls'
      exact ⟨entered, _, hcalls', .inl hnear, hentered, fun hnone => absurd hnone hcalled⟩
  · apply h.gives_alone
    intro events
    have hjump : ∀ target next', i.Continues (f.position + i.size) target →
        Advances f rest i ((({ m with events } : Machine).goTo next').goTo target) := by
      intro target next' htarget
      exact ⟨[], target, calls_goTo (hgone events next') target, htarget, nofun, fun _ => rfl⟩
    cases i with
    | jump distance | loop distance => exact hjump _ _ (.inr rfl)
    | jumpIfFalse distance =>
      unfold execute
      rw [gives_bind, gives_peek, gives_ite]
      exact ⟨fun _ => ⟨[], _, hgone events _, .inl rfl, nofun, fun _ => rfl⟩, fun _ => hjump _ _ (.inr rfl)⟩
    | ret => exact absurd rfl hret
    | _ => exact absurd rfl hpath

theorem Machine.Performs.returns (h : m.Performs f .ret (.ok () m')) (hcalls : m.calls = f :: rest) :
    m'.calls = rest ∧ m'.stack = (m.stack.pop.shrink f.base).push (m.stack.back?.getD .nil) ∧
      m'.cells = m.cells.closeFrom f.base m.stack.pop := by
  apply h.gives_alone
  intro events
  refine gives_leave f (fun _ _ => nofun) fun _ => ⟨?_, rfl, rfl⟩
  exact calls_pop (calls_goTo (m := { m with events }) hcalls _)

/-! ### Slots -/

theorem Machine.Performs.spares (h : m.Performs f i (.ok () m')) (hi : i.movesSlots = false) : m.Spares i.taken m' := by
  obtain ⟨_, hspares⟩ := h.keeps graded_spares (fun _ _ => .of_eq rfl) fun _ => execute_spares hi
  exact ⟨hspares.size_le, hspares.below⟩

theorem Machine.Performs.slot_eq (h : m.Performs f i (.ok () m')) (hcells : m.cells.Consistent)
    (havoids : m.Avoids f i slot) : m'.stack[slot]? = m.stack[slot]? := by
  by_cases hmoves : i.movesSlots = false
  · exact (h.spares hmoves).below slot havoids.taken
  · apply h.gives_alone
    intro events
    apply (havoids.execute hcells hmoves (({ m with events } : Machine).goTo _) rfl rfl).mono
    · exact fun _ _ heq => heq
    · exact fun _ _ hstop => hstop.elim

/-! ### Open cells -/

theorem Machine.Performs.cells_eq (h : m.Performs f i (.ok () m')) (hi : i.changesCells = false) :
    m'.cells = m.cells := by
  obtain ⟨_, heq⟩ := h.keeps (k := 0) blind_cells.graded (fun _ _ => rfl) fun _ => execute_cells hi
  exact heq

/-- A cell that is open has been so before, unless a function was made that captures a variable of the
innermost call. -/
theorem Machine.Performs.opened (h : m.Performs f i (.ok () m')) (hsound : m.Sound past)
    (hmem : (slot, id) ∈ m'.cells.opened) :
    (slot, id) ∈ m.cells.opened ∨ ∃ c ∈ i.captures, c.fromLocal = true ∧ slot = f.base + c.index := by
  by_cases hi : i.changesCells = false
  · rw [h.cells_eq hi] at hmem
    exact .inl hmem
  refine h.gives_alone (Q := fun m' => (slot, id) ∈ m'.cells.opened → (slot, id) ∈ m.cells.opened ∨
    ∃ c ∈ i.captures, c.fromLocal = true ∧ slot = f.base + c.index) (fun events => ?_) hmem
  cases i with
  | setUpvalue index =>
    intro hmem
    have hwrite : ∀ v, (m.cells.write (f.closure.cells[index]?.getD 0) v m.stack).1.opened = m.cells.opened := by
      intro v
      unfold Cells.write
      split <;> rfl
    exact .inl (hwrite _ ▸ hmem)
  | closeUpvalue =>
    intro hmem
    exact .inl (((hsound.cells.closeFrom (m.stack.size - 1) m.stack).mem_iff slot id).mp hmem).1
  | closure index captures =>
    have hevents : ({ m with events } : Machine).Sound past := hsound.congr rfl rfl rfl rfl rfl hsound.library
    have hnoted := hevents.goTo (f.position + (Instruction.closure index captures).size)
    refine gives_makeClosure (fun _ _ => nofun) fun q _ => ?_
    refine (gives_captureCells_gathers hnoted f captures).mono (fun _ _ hgathers hmem => ?_) fun _ _ hstop => hstop
    exact hgathers.added slot id hmem
  | ret =>
    refine gives_leave f (fun _ _ => nofun) fun _ hmem => .inl ?_
    exact (((hsound.cells.closeFrom f.base m.stack.pop).mem_iff slot id).mp hmem).1
  | _ => exact absurd rfl hi

end Mudscript
