import Mudscript.Proofs.Captured
import Mudscript.Proofs.Footprint

/-!
# What runs leave behind

A run that is over, whichever way it ended, leaves a machine without values, calls and open cells. If it
failed, the variables that functions have captured keep the values they had when the failing instruction
began: what an instruction takes off the stack before it fails never includes a captured variable, and a
fault forgets the calls only after the cells are closed.

What a closed cell holds is then a matter of assignments only. Nothing else than a function that assigns
to the captured variable ever changes it again.
-/

namespace Mudscript

open Machine Exec

variable {past : Moment} {L : Layouts} {a : Activity} {m m' m1 : Machine} {f : Frame} {i : Instruction}

/-! ### Instructions that fail -/

/-- What a fault leaves alone: cells, globals and what the library has. -/
structure Machine.Sustains (m m' : Machine) : Prop where
  cells_eq : m'.cells = m.cells
  globals_eq : m'.globals = m.globals
  library : m.library.Grows m'.library

theorem Machine.blind_sustains : Blind Sustains where
  refl _ := ⟨rfl, rfl, .refl _⟩
  trans h h' := ⟨h'.cells_eq.trans h.cells_eq, h'.globals_eq.trans h.globals_eq, h.library.trans h'.library⟩
  stack _ _ := ⟨rfl, rfl, .refl _⟩
  frames _ _ := ⟨rfl, rfl, .refl _⟩
  nextSerial _ _ := ⟨rfl, rfl, .refl _⟩
  events _ _ := ⟨rfl, rfl, .refl _⟩
  library _ _ h := ⟨rfl, rfl, h.toGrows⟩

theorem Machine.sustains_output (m : Machine) (output : String) : m.Sustains { m with output } :=
  ⟨rfl, rfl, .refl _⟩

/-- Captured variables that are on the stack have the same values in two machines. -/
structure Machine.Freezes (m m' : Machine) : Prop extends m.Sustains m' where
  values : ∀ slot id, (slot, id) ∈ m.cells.opened → slot < m.stack.size ∧ m'.stack[slot]? = m.stack[slot]?

theorem Machine.Freezes.trans {m'' : Machine} (h : m.Freezes m') (h' : m'.Freezes m'') : m.Freezes m'' := by
  refine ⟨blind_sustains.trans h.toSustains h'.toSustains, fun slot id hmem => ?_⟩
  obtain ⟨hlt, heq⟩ := h.values slot id hmem
  exact ⟨hlt, (h'.values slot id (h.cells_eq ▸ hmem)).2.trans heq⟩

theorem Machine.Freezes.of_spares {taken : Nat} (h : m.Sustains m') (hspares : m.Spares taken m')
    (hslots : ∀ slot id, (slot, id) ∈ m.cells.opened → slot + taken < m.stack.size) : m.Freezes m' :=
  ⟨h, fun slot id hmem => ⟨Nat.lt_of_le_of_lt (Nat.le_add_right _ _) (hslots slot id hmem),
    hspares.below slot (hslots slot id hmem)⟩⟩

theorem Machine.Freezes.trans_spares (h : m.Freezes m1) (hsustains : m1.Sustains m') (hspares : m1.Spares 0 m') :
    m.Freezes m' := by
  refine ⟨blind_sustains.trans h.toSustains hsustains, fun slot id hmem => ?_⟩
  obtain ⟨hlt, heq⟩ := h.values slot id hmem
  have hlt' : slot < m1.stack.size := by
    rw [Array.getElem?_eq_getElem hlt] at heq
    exact (Array.getElem?_eq_some_iff.mp heq).1
  exact ⟨hlt, (hspares.below slot hlt').trans heq⟩

/-- How an action stops in the middle of a run, unless it ends the run. -/
def Machine.StopsFrozen (m : Machine) (stop : Stop) (m' : Machine) : Prop :=
  (∀ v, stop ≠ .finished v) → m.Freezes m' ∧ stop.Needed m'

/-- The instructions that do not go on at once, and those that put values into slots, do not fail. -/
theorem Exec.execute_total {next : Nat} (hi : ¬ i.goesOn ∨ i.movesSlots) :
    (execute f next i).Gives m (fun _ _ => True) fun stop _ => ∃ v, stop = .finished v := by
  cases i with
  | ret => exact gives_leave f (fun _ => ⟨_, rfl⟩) fun _ => trivial
  | setLocal _ | setUpvalue _ | object _ | closeUpvalue | jump _ | loop _ => trivial
  | _ => exact (hi.elim (fun hi => hi rfl) nofun).elim

/-- What an instruction takes off the stack before it fails is not a captured variable. -/
theorem Machine.Ready.execute_stop {rest} (h : m.Ready past L a) (hcalls : m.calls = f :: rest)
    (hat : f.code.At f.position i) :
    (execute f (f.position + i.size) i).Gives (m.goTo (f.position + i.size)) (fun _ _ => True)
      m.StopsFrozen := by
  by_cases hi : ¬ i.goesOn ∨ i.movesSlots
  · exact (execute_total hi).mono (fun _ _ _ => trivial) fun _ _ ⟨v, hv⟩ hne => absurd hv (hne v)
  · obtain ⟨hgoes, hmoves⟩ := not_or.mp hi
    have hbusy := h.goTo hcalls hat (Decidable.not_not.mp hgoes)
    refine ((blind_sustains.execute_stop sustains_output).and (execute_spares (by simpa using hmoves))).mono
      (fun _ _ _ => trivial) fun stop m' ⟨hsustains, hspares, _⟩ hne => ?_
    obtain ⟨hsustains, hneeded⟩ := hsustains hne
    exact ⟨.of_spares ⟨hsustains.cells_eq, hsustains.globals_eq, hsustains.library⟩ ⟨hspares.size_le, hspares.below⟩
      fun slot id hmem => (hbusy.midway.owned slot id hmem).1, hneeded⟩

theorem Machine.Running.startProgram_freezes (h : m.Running past L a) :
    startProgram.Gives m (fun _ m1 => m.Freezes m1) m.StopsFrozen := by
  rcases h with hready | ⟨m0, p, rfl, _, _, hbusy, _⟩
  · obtain ⟨_, hmidway, _⟩ := hready.arranged
    unfold Gives
    rw [hready.startProgram_eq]
    exact ⟨blind_sustains.refl m, fun slot id hmem => ⟨(hmidway.owned slot id hmem).1, rfl⟩⟩
  · have hslots : ∀ slot id, (slot, id) ∈ m0.cells.opened → slot + 1 < (m0.stack.push (.program p)).size := by
      intro slot id hmem
      rw [Array.size_push]
      exact Nat.succ_lt_succ (hbusy.midway.owned slot id hmem).1
    have hspares := graded_spares.startProgram (fun _ _ _ _ => .of_eq rfl) (m0.withStack (m0.stack.push (.program p)))
    refine (Gives.and (blind_sustains.startProgram _) hspares).mono
      (fun _ _ h => .of_spares h.1 h.2 hslots) fun _ _ h _ => ⟨.of_spares h.1.1 h.2.1 hslots, h.1.2⟩

theorem Machine.Running.step_freezes (h : m.Running past L a) : step.Gives m (fun _ _ => True) m.StopsFrozen := by
  refine gives_step ((h.startProgram_freezes.and (gives_startProgram h)).mono (fun _ m1 ⟨hfreezes, hready⟩ => ?_)
    fun _ _ hstop => hstop.1)
  obtain ⟨f, rest, i, hcalls, hback, hat⟩ := hready.exists_at
  refine ⟨f, i, hback, hat, fun events => ?_⟩
  have hnoted := hready.shown m1.output events
  refine (hnoted.execute_stop hcalls hat).mono (fun _ _ _ => trivial) fun stop m' hstop hne => ?_
  obtain ⟨hstop, hneeded⟩ := hstop hne
  refine ⟨hfreezes.trans ?_, hneeded⟩
  exact ⟨⟨hstop.cells_eq, hstop.globals_eq, hstop.library⟩, hstop.values⟩

theorem Session.Turn.freezes {fault : Fault} (hturn : Turn m (.error (.fault fault) m'))
    (h : m.Running past L a) : m.Freezes m' := by
  cases hturn with
  | step hstep _ => exact (h.step_freezes.error hstep nofun).1
  | @answer _ m1 output _ _ hstep haction hresult =>
    obtain ⟨hfreezes, hneeded⟩ := h.step_freezes.error hstep nofun
    cases haction with
    | source text =>
      have hsustains := (blind_sustains.graded.receiveSource (m := { m1 with output }) _ hneeded text).error hresult
      have hspares := (graded_spares.receiveSource (m := { m1 with output }) _ hneeded text).error hresult
      exact hfreezes.trans_spares (blind_sustains.trans (sustains_output m1 output) hsustains.1)
        ⟨hspares.1.size_le, hspares.1.below⟩
    | time n => cases hresult

/-! ### After a fault -/

/-- What a failed run leaves of the machine it failed on: captured variables keep their values, globals are
what they were, and the library still has what it had. -/
structure Machine.Frozen (m m' : Machine) : Prop where
  opened : ∀ slot (id : CellId), m.cells.all[id]? = some (.opened slot) →
    ∃ v, m.stack[slot]? = some v ∧ m'.cells.all[id]? = some (.closed v)
  closed : ∀ (id : CellId) v, m.cells.all[id]? = some (.closed v) → m'.cells.all[id]? = some (.closed v)
  globals_eq : m'.globals = m.globals
  programs : ∀ (key : String) p, m.library.programs[key]? = some p → m'.library.programs[key]? = some p

theorem Machine.Freezes.frozen (h : m.Freezes m') (hcells : m.cells.Consistent) : m.Frozen m'.reset := by
  have hcloses := hcells.closeFrom 0 m'.stack
  rw [← h.cells_eq] at hcloses
  refine ⟨fun slot id hopened => ?_, fun id v hclosed => ?_, h.globals_eq, h.library.programs⟩
  · have hmem := (hcells.opened_iff slot id).mpr hopened
    obtain ⟨hlt, heq⟩ := h.values slot id hmem
    have hvalue : m.stack[slot]? = some m.stack[slot] := Array.getElem?_eq_getElem hlt
    refine ⟨_, hvalue, (hcloses.closed slot id (h.cells_eq ▸ hmem) (Nat.zero_le _)).trans ?_⟩
    rw [Cells.slotValue, heq, hvalue]
    rfl
  · refine (hcloses.kept id fun slot hmem => ?_).trans (h.cells_eq ▸ hclosed)
    rw [h.cells_eq, hcells.opened_iff, hclosed] at hmem
    cases hmem

/-! ### Closed cells -/

section

variable {id : CellId} {v : Value}

def Cells.KeepsClosed (id : CellId) (v : Value) (cells cells' : Cells) : Prop :=
  cells.all[id]? = some (.closed v) → cells'.all[id]? = some (.closed v)

theorem Machine.blind_keepsClosed (id : CellId) (v : Value) :
    Blind fun m m' => Cells.KeepsClosed id v m.cells m'.cells where
  refl _ := fun h => h
  trans h h' := fun hv => h' (h hv)
  stack _ _ := fun h => h
  frames _ _ := fun h => h
  nextSerial _ _ := fun h => h
  events _ _ := fun h => h
  library _ _ _ := fun h => h

theorem Cells.Consistent.closeFrom_keepsClosed {cells : Cells} (h : cells.Consistent) (height : Nat)
    (stack : Array Value) : cells.KeepsClosed id v (cells.closeFrom height stack) := by
  intro hv
  refine ((h.closeFrom height stack).kept id fun slot hmem => ?_).trans hv
  rw [h.opened_iff, hv] at hmem
  cases hmem

theorem Cells.capture_keepsClosed (cells : Cells) (slot : Nat) : cells.KeepsClosed id v (cells.capture slot).2 := by
  intro hv
  unfold Cells.capture
  split
  · exact hv
  · have hlt := (Array.getElem?_eq_some_iff.mp hv).1
    show (cells.all.push _)[id]? = _
    rw [Array.getElem?_push, if_neg (Nat.ne_of_lt hlt)]
    exact hv

theorem Cells.write_keepsClosed (cells : Cells) {id' : CellId} (hne : id' ≠ id) (w : Value)
    (stack : Array Value) : cells.KeepsClosed id v (cells.write id' w stack).1 := by
  intro hv
  unfold Cells.write
  split
  · exact hv
  · exact (Array.getElem?_setIfInBounds_ne hne).trans hv
  · exact hv

theorem Exec.captureCells_keepsClosed (f : Frame) (captures : List Capture) (ids : Array CellId) :
    (captureCells f captures ids).Gives m (fun _ m' => m.cells.KeepsClosed id v m'.cells) fun _ _ => False := by
  induction captures generalizing m ids with
  | nil => exact fun h => h
  | cons c captures ih =>
    have hcell : (captureCell f c).Gives m (fun _ m' => m.cells.KeepsClosed id v m'.cells)
        fun _ _ => False := by
      unfold captureCell
      split
      · exact m.cells.capture_keepsClosed _
      · exact fun h => h
    unfold captureCells
    rw [gives_bind]
    refine hcell.mono (fun _ m1 h1 => ?_) fun _ _ hstop => hstop
    exact (ih _).mono (fun _ _ h2 hv => h2 (h1 hv)) fun _ _ hstop => hstop

/-- Nothing but an assignment to the captured variable changes what a closed cell holds. -/
theorem Exec.execute_keepsClosed {next : Nat} (hcells : m.cells.Consistent)
    (hset : ∀ index, i = .setUpvalue index → f.closure.cells[index]?.getD 0 ≠ id) :
    (execute f next i).Gives m (fun _ m' => m.cells.KeepsClosed id v m'.cells)
      fun _ m' => m.cells.KeepsClosed id v m'.cells := by
  by_cases hi : i.changesCells = false
  · exact (execute_cells hi).mono (fun _ _ heq => heq ▸ fun h => h) fun _ _ hstop => hstop.1 ▸ fun h => h
  cases i with
  | setUpvalue index => exact m.cells.write_keepsClosed (hset index rfl) _ _
  | closeUpvalue => exact hcells.closeFrom_keepsClosed _ _
  | closure index captures =>
    unfold execute makeClosure
    dsimp only
    split
    · exact fun h => h
    · rw [gives_bind]
      exact (captureCells_keepsClosed f captures #[]).mono (fun _ _ h => h) fun _ _ hstop => hstop.elim
  | ret =>
    exact gives_leave f (fun _ => hcells.closeFrom_keepsClosed _ _) fun _ => hcells.closeFrom_keepsClosed _ _
  | _ => exact absurd rfl hi

/-- The next thing a machine does, after starting a program if there is one, is an instruction of a call. -/
def Machine.Executes (m : Machine) (f : Frame) (i : Instruction) : Prop :=
  ∃ m1, startProgram m = .ok () m1 ∧ m1.frames.back? = some f ∧ f.code.At f.position i

def Machine.Assigns (m : Machine) (id : CellId) : Prop :=
  ∃ f index, m.Executes f (.setUpvalue index) ∧ f.closure.cells[index]? = some id

def Machine.Recalls (m : Machine) (id : CellId) : Prop :=
  ∃ f index, m.Executes f (.getUpvalue index) ∧ f.closure.cells[index]? = some id

theorem Machine.Running.step_keepsClosed (h : m.Running past L a) (hassigns : ¬ m.Assigns id) :
    step.Gives m (fun _ m' => m.cells.KeepsClosed id v m'.cells)
      fun _ m' => m.cells.KeepsClosed id v m'.cells := by
  have hstart := ((blind_keepsClosed id v).startProgram m).and ((gives_startProgram h).and .self)
  refine gives_step (hstart.mono (fun _ m1 ⟨hkeeps, hready, heq⟩ => ?_) fun _ _ hstop => hstop.1.1)
  obtain ⟨f, rest, i, hcalls, hback, hat⟩ := hready.exists_at
  refine ⟨f, i, hback, hat, fun events => ?_⟩
  have hset : ∀ index, i = .setUpvalue index → f.closure.cells[index]?.getD 0 ≠ id := by
    rintro index rfl hid
    have hlt : index < f.closure.cells.size := by
      rw [(hready.closure_valid hcalls).size_eq]
      exact (hready.arranged.allowed hcalls hat).operands
    refine hassigns ⟨f, index, ⟨m1, heq, hback, hat⟩, ?_⟩
    rw [Array.getElem?_eq_getElem hlt] at hid ⊢
    exact congrArg some hid
  exact (execute_keepsClosed (v := v) (m := ({ m1 with events } : Machine).goTo (f.position + i.size))
    hready.sound.cells hset).mono (fun _ _ h hv => h (hkeeps hv)) fun _ _ h hv => h (hkeeps hv)

theorem Session.Turn.keepsClosed {result} (hturn : Turn m result) (h : m.Running past L a) (hassigns : ¬ m.Assigns id) :
    (∀ m', result = .ok () m' → m.cells.KeepsClosed id v m'.cells) ∧
      ∀ stop m', result = .error stop m' → m.cells.KeepsClosed id v m'.cells := by
  have hstep := h.step_keepsClosed (v := v) hassigns
  cases hturn with
  | step heq _ =>
    exact ⟨fun m' hresult => hstep.ok (heq.trans hresult), fun stop m' hresult => hstep.error (heq.trans hresult)⟩
  | @answer _ m1 output _ _ heq haction hresult =>
    have hasked := hstep.error heq
    obtain ⟨_, hneeded⟩ := h.step_freezes.error heq nofun
    have hanswer := (blind_keepsClosed id v).answer haction hneeded output
    exact ⟨fun m' heq' hv => hanswer.ok (hresult.trans heq') (hasked hv),
      fun stop m' heq' hv => (hanswer.error (hresult.trans heq')).1 (hasked hv)⟩

theorem Machine.reset_keepsClosed (hcells : m.cells.Consistent) : m.cells.KeepsClosed id v m.reset.cells :=
  hcells.closeFrom_keepsClosed 0 m.stack

/-- From one point of a session to the next, a closed cell is changed only by an assignment to it. -/
theorem Session.Orderly.keepsClosed {s s' : Session} (h : s.Orderly past L) (hnext : Next s s')
    (hassigns : s.activity ≠ .idle → ¬ s.machine.Assigns id) : s.machine.cells.KeepsClosed id v s'.machine.cells := by
  cases hnext with
  | script hcompiled henter =>
    cases henter
    exact fun hv => hv
  | construction hload hresult hstart =>
    have hkeeps := ((blind_keepsClosed id v).construction _ _).ok hstart
    exact hkeeps
  | notStarted hload hresult hstart =>
    obtain ⟨_, _, _, hsound⟩ := (gives_construction (L := L) (h.idle rfl) hload hresult).error hstart
    exact fun hv => reset_keepsClosed hsound.cells ((((blind_keepsClosed id v).construction _ _).error hstart).1 hv)
  | notLoaded hload hresult => exact fun hv => hv
  | native n => exact fun hv => hv
  | turn ha hturn => exact (hturn.keepsClosed (h.running ha) (hassigns ha)).1 _ rfl
  | finish ha hturn => exact (hturn.keepsClosed (h.running ha) (hassigns ha)).2 _ _ rfl
  | fault ha hturn =>
    have hrunning := h.running ha
    have hsound := ((hturn.safe hrunning).2 _ _ rfl fun _ => nofun).2
    exact fun hv => reset_keepsClosed hsound.cells ((hturn.keepsClosed hrunning (hassigns ha)).2 _ _ rfl hv)
  | shown output events => exact fun hv => hv

end

namespace Session

/-! ### Machines between runs -/

structure IsClean (m : Machine) : Prop where
  stack_eq : m.stack = #[]
  frames_eq : m.frames = #[]
  opened_eq : m.cells.opened = []

/-- What calls from outside make of a new machine, one after the other, each of which returns. They may run
scripts and load objects, with any host, and they may fail. -/
inductive Used : Machine → Prop
  | new (settings : Settings) (source : ObjectSource) (extension : String) :
      Used (.start settings { source, extension })
  | native {m : Machine} (n : Native) : Used m → Used (m.defineNative n)
  | interpret {m host fuel name source r} : Used m → RelaysOutput host → compileScript name source = .ok r →
      (∀ f, (m.interpret host fuel r).1 = .error f → f ≠ .exhausted) → Used (m.interpret host fuel r).2
  | loadObject {m host fuel path} : Used m → RelaysOutput host →
      (∀ f, (m.loadObject host fuel path).1 = .error f → f ≠ .exhausted) → Used (m.loadObject host fuel path).2

theorem Used.reached (h : Used m) : Reached ⟨.idle, m⟩ := by
  induction h with
  | new settings source extension => exact ⟨settings, source, extension, .refl⟩
  | native n _ ih => exact ih.leads (.single (.native n))
  | interpret _ hrelay hcompiled hreturns ih => exact ih.interpret hrelay _ hcompiled hreturns
  | loadObject _ hrelay hreturns ih => exact ih.loadObject hrelay _ hreturns

theorem Reached.isClean (h : Reached ⟨.idle, m⟩) : IsClean m :=
  have hidle := (h.orderly .some).idle rfl
  ⟨hidle.stack_eq, hidle.frames_eq, hidle.opened_eq⟩

/-- A machine that has been used, and has nothing to do, has nothing on its stack, no calls under way and no
open cells. -/
theorem clean_after_calls : (∀ m, Used m → IsClean m) ∧ ∀ m, Reached ⟨.idle, m⟩ → IsClean m :=
  ⟨fun _ h => h.reached.isClean, fun _ h => h.isClean⟩

/-! A script that fails in a function that has a captured variable, for the examples below. -/

theorem steps_of_stop {n k : Nat} {m0 : Machine} {stop : Stop} (h : Exec.steps n m = .ok () m0)
    (hstop : Exec.step m0 = .error stop m') (hlt : n < k) : Exec.steps k m = .error stop m' := by
  obtain ⟨k, rfl⟩ := Nat.exists_eq_add_of_le' (Nat.zero_lt_of_lt hlt)
  have hsteps : ∀ j m, Exec.steps (j + 1) m = EStateM.bind Exec.step (fun _ => Exec.steps j) m := fun _ _ => rfl
  induction n generalizing k m with
  | zero =>
    cases h
    rw [hsteps, EStateM.bind, hstop]
  | succ n ih =>
    obtain ⟨k, rfl⟩ := Nat.exists_eq_add_of_le' (show 0 < k by omega)
    rw [hsteps, EStateM.bind] at h ⊢
    cases heq : Exec.step m with
    | ok _ m1 =>
      rw [heq] at h
      exact ih h k (by omega)
    | error stop' m1 =>
      rw [heq] at h
      cases h

theorem interpret_of_fault (host : Host Id) (fuel : Nat) {n : Nat} {r : Routine} {m0 : Machine} {fault : Fault}
    (h : (Exec.enter r *> Exec.steps n) m = .ok () m0) (hstop : Exec.step m0 = .error (.fault fault) m')
    (hn : n < 1000) : m.interpret host (fuel + 1) r =
      (.error (.runtime fault (host.relay m').backtrace), (host.relay m').reset) := by
  have hsteps : (Exec.enter r *> Exec.steps 1000) m = .error (.fault fault) m' := steps_of_stop h hstop hn
  unfold Machine.interpret Host.run
  rw [Host.drive, hsteps]
  rfl

set_option maxRecDepth 20000 in
theorem exists_failing_call :
    ∃ r, compileScript "main" "{var f=function(){var y=true;var g=function(){return y;};return -y;};f();}" = .ok r ∧
      ∃ m0, (Exec.enter r *> Exec.steps 6) (start {} (.memory ∅) "").machine = .ok () m0 ∧
      ∃ stop m1, Exec.step m0 = .error stop m1 ∧
        (stop, m0.cells.all[0]?, m0.stack[3]?, m1.library) = (.fault .operandNotNumber, some (.opened 3),
          some (.bool true), (start {} (.memory ∅) "").machine.library) := Computed.intro _ (by cbv)

theorem relaysOutput_ofFiles (files : Files) (time : Number) : RelaysOutput (.ofFiles files time) :=
  fun m => ⟨m.output, rfl⟩

/-- A script fails in the middle of a call, and after that an object cannot be loaded. -/
theorem clean_after_calls_failing :
    ∃ (r : Routine) (m m' m'' : Machine) (fault : Fault) (trace : Backtrace) (e : LoadError),
      m = .start {} { source := .memory ∅, extension := "" } ∧
      m.interpret (.ofFiles {} (.ofNat 0)) 1 r = (.error (.runtime fault trace), m') ∧ IsClean m' ∧
      m'.loadObject (.ofFiles {} (.ofNat 0)) 1 "/a" = (.error (.load e), m'') ∧ IsClean m'' := by
  obtain ⟨host, hhost⟩ : ∃ host : Host Id, host = .ofFiles {} (.ofNat 0) := ⟨_, rfl⟩
  have hrelay : RelaysOutput host := hhost ▸ relaysOutput_ofFiles _ _
  obtain ⟨r, hr, m0, hm0, _, m1, hstep, hseen⟩ := exists_failing_call
  simp only [Prod.mk.injEq] at hseen
  obtain ⟨rfl, _, _, hlibrary⟩ := hseen
  have hfails := interpret_of_fault host 0 hm0 hstep (by decide)
  obtain ⟨m', trace, hm', hlibrary'⟩ : ∃ m' trace, (start {} (.memory ∅) "").machine.interpret host 1 r =
      (.error (.runtime .operandNotNumber trace), m') ∧ m'.library = m1.library := by
    refine ⟨_, _, hfails, ?_⟩
    subst hhost
    rfl
  have hscript : Used m' := by
    have hused : Used ((start {} (.memory ∅) "").machine.interpret host 1 r).2 := by
      refine .interpret (.new {} (.memory ∅) "") hrelay hr fun f hf => ?_
      rw [show Machine.interpret _ host 1 r = _ from hm'] at hf
      cases hf
      rintro ⟨⟩
    rw [hm'] at hused
    exact hused
  have hloading : m'.library.load "/a" m'.nextSerial host.textOf =
      ⟨.error (.unreadable (m'.library.key "/a") (.noObject (m'.library.key "/a"))), m'.library,
        [.cacheMiss (m'.library.key "/a")]⟩ := by
    rw [hlibrary', hlibrary]
    simp [Library.load, Library.ask, Library.origin, Library.enroll, start, Machine.start, Native.standard,
      Machine.defineNative, Machine.define]
  have hload := loadObject_eq_error 1 hloading rfl
  have hloaded : Used (m'.loadObject host 1 "/a").2 := by
    refine .loadObject hscript hrelay fun f hf => ?_
    rw [hload] at hf
    cases hf
    rintro ⟨⟩
  rw [hload] at hloaded
  rw [← hhost]
  exact ⟨r, _, m', _, _, trace, _, rfl, hm', clean_after_calls.1 m' hscript, hload, clean_after_calls.1 _ hloaded⟩

/-! ### Runs that fail -/

/-- What a session is about to do in the state `m0` fails: a turn of a run, or the start of one. -/
inductive FailsAt (s : Session) (fault : Fault) : Machine → Prop
  | turn {a m0 m'} : a ≠ .idle → s.Leads ⟨a, m0⟩ → Turn m0 (.error (.fault fault) m') → FailsAt s fault m0
  | start {m0 m' p path} {textOf : String → Except FileError String}
      {loading} : s.machine.library.load path s.machine.nextSerial textOf = loading →
      loading.result = .ok p → m0 = s.machine.afterLoading loading →
      Exec.construction p m0 = .error (.fault fault) m' → FailsAt s fault m0

theorem Reached.frozen {s : Session} (h : s.Reached) (hactivity : s.activity ≠ .idle) {fault : Fault}
    (hturn : Turn s.machine (.error (.fault fault) m')) : s.machine.Frozen m'.reset :=
  (hturn.freezes ((h.orderly .some).running hactivity)).frozen (h.orderly .some).consistent

def Leaves (s : Session) (fault : Fault) (m : Machine) : Prop :=
  ∃ m0, s.FailsAt fault m0 ∧ m0.Frozen m ∧ s.machine.library.Grows m.library

theorem Reached.faults_frozen {s : Session} (hs : s.Reached) : s.Faults fun fault m => s.Leaves fault m.reset where
  turn ha h hturn :=
    ⟨_, .turn ha h hturn, (hs.leads h).frozen ha hturn,
      ((Leads.enrolls h).trans ((hturn.keeps lenient_enrolls).2 _ _ rfl)).toGrows⟩
  shown m output fault h := by
    obtain ⟨m0, hfails, hfrozen, hgrows⟩ := h
    exact ⟨m0, hfails, ⟨hfrozen.opened, hfrozen.closed, hfrozen.globals_eq, hfrozen.programs⟩, hgrows⟩

theorem construction_frozen {p : Program} {fault : Fault} (h : m.Idle past)
    (hstart : Exec.construction p m = .error (.fault fault) m') : m.Frozen m'.reset := by
  have hsustains := ((blind_sustains.construction p m).error hstart).1
  refine Freezes.frozen ⟨hsustains, fun slot id hmem => ?_⟩ h.sound.cells
  rw [h.opened_eq] at hmem
  cases hmem

theorem Reached.start_frozen {textOf} {path : String}
    {loading : Library.Loading} {p : Program} {fault : Fault} (h : Reached ⟨.idle, m⟩)
    (hload : m.library.load path m.nextSerial textOf = loading) (hloaded : loading.result = .ok p)
    (hstart : Exec.construction p (m.afterLoading loading) = .error (.fault fault) m') :
    Leaves ⟨.idle, m⟩ fault m'.reset := by
  have hidle := (h.orderly .some).idle rfl
  have hloading := hidle.afterLoading (hidle.sound.library.comes (Library.brings_load hload))
  refine ⟨_, .start hload hloaded rfl hstart, construction_frozen hloading hstart, ?_⟩
  exact ((Library.brings_load hload).enrolls.trans ((lenient_enrolls.construction _ _).error hstart).1).toGrows

/-! ### Captured variables after a fault -/

/-- As long as nothing is assigned to a captured variable that is not on the stack any more, it keeps its
value. -/
theorem Reached.closed_kept {s s' : Session} {id : CellId} {v : Value} (h : s.Reached) (hleads : s.Leads s')
    (hv : s.machine.cells.all[id]? = some (.closed v)) :
    (∃ s1, s.Leads s1 ∧ s1.Leads s' ∧ s1.activity ≠ .idle ∧ s1.machine.Assigns id) ∨
      s'.machine.cells.all[id]? = some (.closed v) := by
  induction hleads with
  | refl => exact .inr hv
  | @tail s2 s3 hleads hnext ih =>
    rcases ih with ⟨s1, hbefore, hafter, hassigns⟩ | hv
    · exact .inl ⟨s1, hbefore, hafter.tail hnext, hassigns⟩
    · by_cases hassigns : s2.activity ≠ .idle ∧ s2.machine.Assigns id
      · exact .inl ⟨s2, hleads, .single hnext, hassigns⟩
      · have horderly := (h.leads hleads).orderly .some
        exact .inr (horderly.keepsClosed hnext (fun ha hset => hassigns ⟨ha, hset⟩) hv)

theorem Turn.recalls {id : CellId} {v : Value} (hturn : Turn m (.ok () m'))
    (hv : m.cells.all[id]? = some (.closed v)) (hrecalls : m.Recalls id) : m'.stack.back? = some v := by
  obtain ⟨f, index, ⟨m1, hstart, hback, hat⟩, hid⟩ := hrecalls
  have hv1 : m1.cells.all[id]? = some (.closed v) := ((blind_keepsClosed id v).startProgram m).ok hstart hv
  have hstep : Exec.step.Gives m (fun _ m' => m'.stack.back? = some v) fun _ _ => False := by
    refine gives_step ?_
    unfold Gives
    rw [hstart]
    refine ⟨f, _, hback, hat, fun events => ?_⟩
    show (m1.stack.push (m1.cells.read (f.closure.cells[index]?.getD 0) m1.stack)).back? = some v
    rw [Array.back?_push, hid, Cells.read, Option.getD_some, hv1]
  cases hturn with
  | step heq _ => exact hstep.ok heq
  | answer heq _ _ => exact (hstep.error heq).elim

/-- A fault freezes captured variables. Those that are on the stack when the failing instruction begins are
afterwards in cells closed over the values they have at that moment; other cells keep what they have; the
globals are the same, and the library loses nothing. The same is true of the machine that is left when a
script fails or the construction of an object, and from then on a function reads from such a cell what it
held, unless a function assigned to it in between. -/
theorem frozen_by_fault {a : Activity} {m : Machine} (h : Reached ⟨a, m⟩) :
    (a ≠ .idle → ∀ fault m', Turn m (.error (.fault fault) m') → m.Frozen m'.reset) ∧
    (a = .idle → ∀ (host : Host Id) fuel, RelaysOutput host →
      (∀ name source r fault trace, compileScript name source = .ok r →
        (m.interpret host fuel r).1 = .error (.runtime fault trace) →
        Leaves ⟨.idle, m⟩ fault (m.interpret host fuel r).2) ∧
      ∀ path fault trace, (m.loadObject host fuel path).1 = .error (.runtime fault trace) →
        Leaves ⟨.idle, m⟩ fault (m.loadObject host fuel path).2) ∧
    ∀ (id : CellId) v s, m.cells.all[id]? = some (.closed v) → Leads ⟨a, m⟩ s →
      (∃ s1, Leads ⟨a, m⟩ s1 ∧ s1.Leads s ∧ s1.activity ≠ .idle ∧ s1.machine.Assigns id) ∨
      s.machine.cells.all[id]? = some (.closed v) ∧
        ∀ m', s.machine.Recalls id → Turn s.machine (.ok () m') → m'.stack.back? = some v := by
  refine ⟨fun ha fault m' hturn => h.frozen ha hturn, ?_, fun id v s hv hleads => ?_⟩
  · rintro rfl host fuel hrelay
    refine ⟨fun name source r fault trace hr hresult => ?_, fun path fault trace hresult => ?_⟩
    · obtain ⟨m', hleaves, _, heq⟩ := h.faults_frozen.interpret h hrelay hr hresult
      exact heq ▸ hleaves
    · obtain ⟨m', hleaves, _, heq⟩ := h.faults_frozen.loadObject h hrelay h.start_frozen hresult
      exact heq ▸ hleaves
  · refine (h.closed_kept hleads hv).imp_right fun hkept => ⟨hkept, fun m' hrecalls hturn => ?_⟩
    exact hturn.recalls hkept hrecalls

/-- A call fails that has a captured variable. -/
theorem frozen_by_fault_captured : ∃ m m', Reached ⟨.script, m⟩ ∧ Turn m (.error (.fault .operandNotNumber) m') ∧
      m.cells.all[0]? = some (.opened 3) ∧ m.stack[3]? = some (.bool true) ∧
      m'.reset.cells.all[0]? = some (.closed (.bool true)) := by
  obtain ⟨r, hr, m, hm, _, m', hstep, hseen⟩ := exists_failing_call
  simp only [Prod.mk.injEq] at hseen
  obtain ⟨rfl, hcell, hvalue, _⟩ := hseen
  have hscript : Activity.script ≠ .idle := nofun
  have hreached : Reached ⟨.script, m⟩ := (reached_start _).script hr hm
  have hturn : Turn m (.error (.fault .operandNotNumber) m') := .step hstep fun _ _ => nofun
  obtain ⟨v, hv, hclosed⟩ := ((frozen_by_fault hreached).1 hscript _ _ hturn).opened 3 0 hcell
  obtain rfl : v = .bool true := Option.some.inj (hv.symm.trans hvalue)
  exact ⟨m, m', hreached, hturn, hcell, hvalue, hclosed⟩

end Session

end Mudscript
