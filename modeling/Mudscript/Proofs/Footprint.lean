import Mudscript.Proofs.Actions

/-!
# What instructions leave alone

Most instructions work on the stack and nothing else. Two things are said of them here, and both hold
however the instruction ends. A view of the machine that looks at none of the things every instruction
may change sees no difference, unless the instruction is one of the few that are made to change what it
looks at. And on the stack only those values are replaced that the instruction takes.
-/

namespace Mudscript

open Machine Exec

variable {action : Exec Unit} {l' l'' : Library} {slot : Nat} {r : Request} {s s' : Session}

variable {arguments : Nat} {p : Prop} {name : String} {Q : Unit → Machine → Prop} {v : Value}

variable {α β γ : Type}

/-! ### Actions that only look -/

/-- The source of an object is asked for only if the library does not have it. -/
def Stop.Needed : Stop → Machine → Prop
  | .request (.source key _ _), m => m.library.programs[key]? = none
  | _, _ => True

def Exec.Inspects (x : Exec α) : Prop :=
  ∀ m, x.Gives m (fun _ m' => m' = m) fun stop m' => m' = m ∧ stop.Needed m'

namespace Exec.Inspects

theorem pure (a : α) : Inspects (Pure.pure a) := fun _ => rfl

theorem get : Inspects MonadState.get := fun _ => rfl

theorem fail (f : Fault) : Inspects (Exec.fail f : Exec α) := fun _ => ⟨rfl, trivial⟩

theorem peek (depth : Nat) : Inspects (Exec.peek depth) := fun _ => rfl

theorem readCell (id : CellId) : Inspects (Exec.readCell id) := fun _ => rfl

theorem getProperty (v : Value) (name : String) : Inspects (Exec.getProperty v name) :=
  fun _ => gives_getProperty (fun _ _ _ _ => rfl) fun _ _ => ⟨rfl, trivial⟩

theorem parentOf (f : Frame) (v : Value) : Inspects (Exec.parentOf f v) :=
  fun _ => gives_parentOf (fun _ _ _ _ => rfl) fun _ _ => ⟨rfl, trivial⟩

theorem checkArity (arity : Arity) (arguments : Nat) : Inspects (Exec.checkArity arity arguments) :=
  fun _ => gives_checkArity arity rfl fun _ _ => ⟨rfl, trivial⟩

end Exec.Inspects

/-! ### Libraries -/

/-- What a library has it keeps, and it goes on to look for the rest where it did. -/
structure Library.Grows (l l' : Library) : Prop where
  programs : ∀ (key : String) (p : Program), l.programs[key]? = some p → l'.programs[key]? = some p
  source_eq : l'.source = l.source
  extension_eq : l'.extension = l.extension

/-- A library that has compiled more: a new program is that of the object with its key. -/
structure Library.Enrolls (l l' : Library) : Prop extends l.Grows l' where
  added : ∀ (key : String) (p : Program), l'.programs[key]? = some p →
    l.programs[key]? = some p ∨ ∃ source, compileObject key source = .ok p.routine

namespace Library

variable {l : Library} {key : String} {serial : Nat}

theorem Grows.refl (l : Library) : l.Grows l := ⟨fun _ _ h => h, rfl, rfl⟩

theorem Grows.trans (h : l.Grows l') (h' : l'.Grows l'') : l.Grows l'' :=
  ⟨fun key p hp => h'.programs key p (h.programs key p hp), h'.source_eq.trans h.source_eq,
    h'.extension_eq.trans h.extension_eq⟩

theorem Enrolls.refl (l : Library) : l.Enrolls l := ⟨.refl l, fun _ _ h => .inl h⟩

theorem Enrolls.trans (h : l.Enrolls l') (h' : l'.Enrolls l'') : l.Enrolls l'' :=
  ⟨h.toGrows.trans h'.toGrows, fun key p hp => (h'.added key p hp).elim (h.added key p) .inr⟩

theorem Loading.Comes.enrolls {loading : Loading} (h : loading.Comes l key serial (l.programs[key]? = none)) :
    l.Enrolls loading.library := by
  cases h with
  | failed | had _ => exact .refl l
  | compiled hnew hcompiled =>
    refine ⟨⟨fun key' p hp => ?_, rfl, rfl⟩, fun key' p hp => ?_⟩
    · rw [Std.HashMap.getElem?_insert, if_neg]
      · exact hp
      · intro heq
        rw [← eq_of_beq heq, hnew] at hp
        cases hp
    · rw [Std.HashMap.getElem?_insert] at hp
      split at hp
      · rename_i heq
        cases hp
        exact .inr ⟨_, eq_of_beq heq ▸ hcompiled⟩
      · exact .inl hp

end Library

/-! ### Comparing machines -/

/-- Comparisons of machines after actions, by how many of the topmost values an action may touch. None of them
looks at the numbers that are given to functions or at what is noted, and a library may grow. -/
structure Machine.Graded (R : Nat → Machine → Machine → Prop) : Prop where
  refl : ∀ m, R 0 m m
  trans : ∀ {j k m m' m''}, R j m m' → R k m' m'' → R (j + k) m m''
  again : ∀ {j} {m m' m'' : Machine}, R j m m' → m'.stack.size = m.stack.size → R j m' m'' → R j m m''
  mono : ∀ {j k m m'}, R j m m' → j ≤ k → R k m m'
  pushed : ∀ (m : Machine) v, R 0 m (m.withStack (m.stack.push v))
  popped : ∀ m : Machine, R 1 m (m.withStack m.stack.pop)
  shrunk : ∀ (m : Machine) count, R count m (m.withStack (m.stack.shrink (m.stack.size - count)))
  replaced : ∀ {j slot} (m : Machine) v, m.stack.size ≤ slot + j →
    R j m (m.withStack (m.stack.setIfInBounds slot v))
  nextSerial : ∀ (m : Machine) nextSerial, R 0 m { m with nextSerial }
  events : ∀ (m : Machine) events, R 0 m { m with events }
  library : ∀ (m : Machine) library, m.library.Enrolls library → R 0 m { m with library }

/-- A comparison of machines that does not look at their values. It allows a library to grow. -/
structure Machine.Coarse (R : Machine → Machine → Prop) : Prop where
  refl : ∀ m, R m m
  trans : ∀ {m m' m''}, R m m' → R m' m'' → R m m''
  stack : ∀ (m : Machine) stack, R m { m with stack }
  nextSerial : ∀ (m : Machine) nextSerial, R m { m with nextSerial }
  events : ∀ (m : Machine) events, R m { m with events }
  library : ∀ (m : Machine) library, m.library.Enrolls library → R m { m with library }

/-- A comparison that does not mind a call either that is about to start. -/
structure Machine.Shortsighted (R : Machine → Machine → Prop) : Prop extends Machine.Coarse R where
  call : ∀ (m : Machine) (f : Frame), f.position = 0 → m.frames.size < m.settings.maxFrames →
    R m { m with frames := m.frames.push f }

/-- A comparison that does not look at the calls of machines at all. -/
structure Machine.Blind (R : Machine → Machine → Prop) : Prop extends Machine.Shortsighted R where
  frames : ∀ (m : Machine) frames, R m { m with frames }
  call m f _ _ := frames m (m.frames.push f)

theorem Machine.Coarse.graded {R : Machine → Machine → Prop} (h : Coarse R) : Graded fun _ => R where
  refl := h.refl
  trans := h.trans
  again h1 _ h2 := h.trans h1 h2
  mono h1 _ := h1
  pushed m _ := h.stack m _
  popped m := h.stack m _
  shrunk m _ := h.stack m _
  replaced m _ _ := h.stack m _
  nextSerial := h.nextSerial
  events := h.events
  library := h.library

/-- However an action ends, the machine compares to the one it started in. -/
def Exec.KeepsFrom (R : Machine → Machine → Prop) (m : Machine) (x : Exec α) : Prop :=
  x.Gives m (fun _ m' => R m m') fun stop m' => R m m' ∧ stop.Needed m'

def Exec.Keeps (R : Machine → Machine → Prop) (x : Exec α) : Prop := ∀ m, KeepsFrom R m x

theorem Exec.Keeps.ite {R : Machine → Machine → Prop} [Decidable p] {x y : Exec α} (hx : Keeps R x)
    (hy : Keeps R y) : Keeps R (if p then x else y) := by
  split
  · exact hx
  · exact hy

theorem Exec.Keeps.discard {R : Machine → Machine → Prop} {x : Exec α} (hx : Keeps R x) : Keeps R (Functor.discard x) :=
  fun m => (gives_discard _).mpr (hx m)

section

variable {R : Nat → Machine → Machine → Prop} {j k : Nat} {m : Machine} {f : Frame} {i : Instruction}
  {next : Nat}

namespace Machine.Graded

variable (h : Graded R)

include h

theorem weaken {x : Exec α} (hx : KeepsFrom (R j) m x) (hle : j ≤ k) : KeepsFrom (R k) m x :=
  hx.mono (fun _ _ h1 => h.mono h1 hle) fun _ _ hstop => ⟨h.mono hstop.1 hle, hstop.2⟩

theorem inspects {x : Exec α} (hx : Inspects x) : Keeps (R k) x :=
  fun m => h.weaken ((hx m).mono (fun _ _ heq => heq ▸ h.refl m)
    fun _ _ ⟨heq, hneeded⟩ => ⟨heq ▸ h.refl m, hneeded⟩) (Nat.zero_le k)

theorem bind {x : Exec α} {f : α → Exec β} (hx : Keeps (R j) x) (hf : ∀ a, Keeps (R k) (f a)) :
    Keeps (R (j + k)) (x >>= f) := by
  intro m
  refine (gives_bind _ _).mpr ((hx m).mono (fun a m1 h1 => ?_)
    fun _ _ hstop => ⟨h.mono hstop.1 (Nat.le_add_right _ _), hstop.2⟩)
  exact (hf a m1).mono (fun _ _ h2 => h.trans h1 h2) fun _ _ hstop => ⟨h.trans h1 hstop.1, hstop.2⟩

theorem look {x : Exec α} {f : α → Exec β} (hx : Inspects x) (hf : ∀ a, Keeps (R k) (f a)) : Keeps (R k) (x >>= f) := by
  have hbind : Keeps (R (0 + k)) (x >>= f) := h.bind (h.inspects hx) hf
  rwa [Nat.zero_add] at hbind

theorem fail (f : Fault) : Keeps (R k) (Exec.fail f : Exec α) := h.inspects (.fail f)

theorem push (v : Value) : Keeps (R 0) (Exec.push v) := fun m => h.pushed m v

theorem pop : Keeps (R 1) Exec.pop := fun m => h.popped m

theorem popMany (count : Nat) : Keeps (R count) (Exec.popMany count) := fun m => h.shrunk m count

theorem freshSerial : Keeps (R 0) Exec.freshSerial := fun m => h.nextSerial m _

/-! ### Actions -/

theorem pushConstant (c : Constant) : Keeps (R 0) (Exec.pushConstant c) := by
  cases c with
  | number n => exact h.push _
  | text s => exact h.push _
  | routine r => exact h.bind h.freshSerial fun _ => h.push _

theorem getGlobal (name : String) : Keeps (R 0) (Exec.getGlobal name) := by
  refine h.look .get fun m => ?_
  split
  · exact h.push _
  · exact h.fail _

theorem receive (caller : Option String) {loading : Library.Loading} (hloading : m.library.Enrolls loading.library) :
    KeepsFrom (R 0) m (Exec.receive caller loading) := by
  have htaken : R 0 m (m.afterLoading loading) :=
    h.trans (h.trans (h.library m _ hloading) (h.events _ _)) (h.nextSerial _ _)
  exact gives_receive (fun p _ => h.trans htaken (h.pushed _ _)) (fun _ => ⟨htaken, trivial⟩) fun _ _ =>
    ⟨htaken, trivial⟩

theorem load (caller : Option String) (path : String) : Keeps (R 0) (Exec.load caller path) :=
  fun m => gives_load (fun _ hbrings => h.receive caller hbrings.enrolls) fun _ hnew => ⟨h.refl m, hnew⟩

theorem receiveSource (caller : Option String) {key : String} (hnew : m.library.programs[key]? = none)
    (source : Except FileError String) : KeepsFrom (R 0) m (Exec.receiveSource caller key source) := by
  unfold KeepsFrom Exec.receiveSource
  rw [gives_bind, gives_get, gives_bind, gives_get]
  exact h.receive caller ((Library.comes_enroll hnew _).enrolls)

theorem answer (haction : Session.Answers r action)
    (hneeded : (Stop.request r).Needed m) (output : String) : KeepsFrom (R 0) { m with output } action := by
  cases haction with
  | source text => exact h.receiveSource (m := { m with output }) _ hneeded text
  | time n => exact h.push _ _

/-! ### Calls of functions of the host -/

theorem perform (hout : ∀ (m : Machine) output, R 0 m { m with output }) (n : Native)
    (arguments : Array Value) : Keeps (R 0) (Exec.perform n arguments) :=
  fun m => gives_perform (fun v _ => h.pushed m v) (fun output => h.trans (hout m output) (h.pushed _ _))
    (fun path => h.load _ path m) ⟨h.refl m, trivial⟩ fun _ _ => ⟨h.refl m, trivial⟩

theorem callNative (hout : ∀ (m : Machine) output, R 0 m { m with output }) (n : Native)
    (arguments : Nat) : Keeps (R (arguments + 1)) (Exec.callNative n arguments) :=
  h.look (.checkArity _ _) fun _ => h.bind (h.popMany _) fun _ => h.bind h.pop.discard fun _ =>
    h.perform hout n _

/-! ### Calls -/

variable (hcall : ∀ (m : Machine) (f : Frame), f.position = 0 → m.frames.size < m.settings.maxFrames →
  R 0 m { m with frames := m.frames.push f })

include hcall

theorem callClosure (c : Closure) (arguments : Nat) : Keeps (R 0) (Exec.callClosure c arguments) :=
  fun m => gives_callClosure ⟨h.refl m, trivial⟩ ⟨h.refl m, trivial⟩ fun _ => hcall m _ rfl

theorem callProgram (hslot : m.stack.size ≤ slot + j) : KeepsFrom (R j) m (Exec.callProgram slot) := by
  unfold KeepsFrom Exec.callProgram
  rw [gives_bind, gives_get]
  split
  · rename_i p _
    rw [gives_bind, gives_newClosure, gives_bind, gives_setSlot]
    have hset : R (0 + j) m ((m.withSerial (m.nextSerial + 1)).withStack (m.stack.setIfInBounds slot
        (.closure ⟨m.nextSerial, p.routine, #[]⟩))) :=
      h.trans (h.nextSerial m _) (h.replaced (m.withSerial _) _ hslot)
    rw [Nat.zero_add] at hset
    exact gives_callClosure ⟨hset, trivial⟩ ⟨hset, trivial⟩ fun _ hroom => h.trans hset (hcall _ _ rfl hroom)
  · exact h.fail _ m

theorem startProgram : Keeps (R 1) Exec.startProgram := by
  intro m
  unfold KeepsFrom Exec.startProgram
  rw [gives_bind, gives_get]
  split
  · exact (gives_bind _ _).mpr (h.callProgram hcall (by omega))
  · exact h.mono (h.refl m) (Nat.zero_le _)

theorem construction (p : Program) : Keeps (R 1) (Exec.construction p) := by
  refine h.bind (j := 0) (k := 1) (h.push _) fun _ m => ?_
  unfold KeepsFrom
  rw [gives_bind, gives_get]
  exact h.callProgram hcall (by omega)

/-- What is printed may matter, as long as no function of the host is called. -/
theorem callValue (hnative : (∀ (m : Machine) output, R 0 m { m with output }) ∨
      ∀ n, m.stack[m.stack.size - 1 - arguments]?.getD .nil ≠ .native n) :
    KeepsFrom (R (arguments + 1)) m (Exec.callValue arguments) := by
  have hfault : ∀ f, R (arguments + 1) m m ∧ (Stop.fault f).Needed m :=
    fun _ => ⟨h.mono (h.refl m) (Nat.zero_le _), trivial⟩
  refine gives_callValue (fun c _ => h.weaken (h.callClosure hcall c arguments m) (Nat.zero_le _)) (fun n hn => ?_) ?_
    fun f _ => hfault f
  · rcases hnative with hout | hne
    · exact h.callNative hout n arguments m
    · exact absurd hn (hne n)
  · rintro _ _ rfl
    exact h.callProgram hcall (by omega)

theorem invoke (hnative : (∀ (m : Machine) output, R 0 m { m with output }) ∨
      ∀ o n, m.stack[m.stack.size - 1 - arguments]?.getD .nil = .object o →
        m.objects.property? o name ≠ some (.native n)) :
    KeepsFrom (R (arguments + 1)) m (Exec.invoke name arguments) := by
  refine gives_invoke (fun _ c _ _ => h.weaken (h.callClosure hcall c arguments m) (Nat.zero_le _))
    (fun o v ho hv => ?_) fun _ _ => ⟨h.mono (h.refl m) (Nat.zero_le _), trivial⟩
  have hset := @h.replaced (arguments + 1) (m.stack.size - 1 - arguments) m v (by omega)
  have hsize := @Array.size_setIfInBounds _ m.stack (m.stack.size - 1 - arguments) v
  refine (h.callValue hcall (hnative.imp_right fun hne n heq => ?_)).mono (fun _ _ h' => h.again hset hsize h')
    fun _ _ hstop => ⟨h.again hset hsize hstop.1, hstop.2⟩
  rw [withStack_stack, Array.size_setIfInBounds, Array.getElem?_setIfInBounds, if_pos rfl] at heq
  split at heq
  · exact hne o n ho (hv.trans (congrArg some heq))
  · cases heq

theorem invokeParent (name : String) (arguments : Nat) : Keeps (R 1) (Exec.invokeParent name arguments) := by
  intro m
  refine gives_invokeParent (fun _ c _ _ => ?_) fun _ _ => ⟨h.popped m, trivial⟩
  exact (h.callClosure hcall c arguments _).mono (fun _ _ h' => h.trans (h.popped m) h')
    fun _ _ hstop => ⟨h.trans (h.popped m) hstop.1, hstop.2⟩

end Machine.Graded

end

/-! ### Instructions -/

/-- The instructions that change neither variables nor objects. -/
def Instruction.isQuiet : Instruction → Bool
  | .defineGlobal _ | .setGlobal _ | .setUpvalue _ | .closeUpvalue | .setProperty _ | .closure _ _ | .ret
  | .object _ | .inherit | .field _ | .method _ => false
  | _ => true

def Instruction.leavesPath : Instruction → Bool
  | .jump _ | .jumpIfFalse _ | .loop _ | .ret => true
  | _ => false

def Instruction.bringsForth : Instruction → Bool
  | .object _ | .inherit => true
  | _ => false

/-- How many values an instruction takes that calls a function: the function or the receiver with its
arguments, and the object above them whose method is called, where that is another one. -/
def Instruction.called? : Instruction → Option Nat
  | .call arguments | .invoke _ arguments => some (arguments + 1)
  | .superInvoke _ arguments => some (arguments + 2)
  | _ => none

def Instruction.changesCells : Instruction → Bool
  | .setUpvalue _ | .closeUpvalue | .closure _ _ | .ret => true
  | _ => false

def Instruction.changesObjects : Instruction → Bool
  | .setProperty _ | .object _ | .inherit | .field _ | .method _ => true
  | _ => false

/-- The instructions that put values into slots, or take all values of a call. -/
def Instruction.movesSlots : Instruction → Bool
  | .setLocal _ | .setUpvalue _ | .ret | .object _ => true
  | _ => false

def Machine.CallsNative (m : Machine) (f : Frame) : Instruction → Prop
  | .call arguments => ∃ n, m.stack[m.stack.size - 1 - arguments]?.getD .nil = .native n
  | .invoke name arguments => ∃ o n, m.stack[m.stack.size - 1 - arguments]?.getD .nil = .object o ∧
      m.objects.property? o (f.code.nameAt name) = some (.native n)
  | _ => False

section

variable {m : Machine} {f : Frame} {i : Instruction} {next : Nat}

theorem gives_captureCells_cells (f : Frame) (captures : List Capture) :
    (captureCells f captures #[]).Gives m (fun _ m' => ∃ cells, m' = m.withCells cells) fun _ _ => False := by
  refine gives_captureCells (P := fun _ _ m' => ∃ cells, m' = m.withCells cells) ⟨m.cells, rfl⟩ ?_
  rintro c _ _ _ _ ⟨cells, rfl⟩
  unfold captureCell
  split
  · exact ⟨_, rfl⟩
  · exact ⟨cells, rfl⟩

/-- An instruction touches no values but those it takes, and changes only what it is made to change. It prints
only if it calls a function of the host. -/
theorem Machine.Graded.execute {R : Nat → Machine → Machine → Prop} (h : Graded R)
    (hslots : (∀ (m : Machine) stack, R i.taken m { m with stack }) ∨ i.movesSlots = false)
    (hcall : (∀ (m : Machine) (f : Frame), f.position = 0 → m.frames.size < m.settings.maxFrames →
      R 0 m { m with frames := m.frames.push f }) ∨ i.called? = none)
    (hcells : (∀ (m : Machine) cells, R 0 m { m with cells }) ∨ i.changesCells = false)
    (hfields : (∀ (m : Machine) (o : ObjectId) name v,
      R 0 m { m with objects := m.objects.modify o (·.putField name v) }) ∨ i.changesObjects = false)
    (hmethods : (∀ (m : Machine) (o : ObjectId) name c,
      R 0 m { m with objects := m.objects.modify o (·.putMethod name c) }) ∨ i.changesObjects = false)
    (hframes : (∀ (m : Machine) (frames : Array Frame), frames.size ≤ m.frames.size → R 0 m { m with frames }) ∨
      i.leavesPath = false)
    (hobjects : (∀ (m : Machine) objects, R 0 m { m with objects }) ∨ i.bringsForth = false)
    (hglobals : (∀ (m : Machine) globals, R 0 m { m with globals }) ∨
      ∀ name, i ≠ .defineGlobal name ∧ i ≠ .setGlobal name)
    (hnative : (∀ (m : Machine) output, R 0 m { m with output }) ∨ ¬ m.CallsNative f i) :
    KeepsFrom (R i.taken) m (Exec.execute f next i) := by
  have hgo : i.leavesPath → ∀ position, Keeps (R 0) (moveTo position) := by
    intro hpath position m
    exact hframes.resolve_right (by simp [hpath]) m _ (by simp)
  cases i with
  | constant index => exact h.pushConstant _ m
  | pushNil | pushTrue | pushFalse => exact h.push _ m
  | pop => exact h.pop.discard m
  | dup => exact h.weaken (h.look (.peek 0) (fun _ => h.push _) m) (Nat.zero_le _)
  | getLocal slot => exact h.look .get (fun _ => h.push _) m
  | setLocal slot =>
    have hset : ∀ v, Keeps (R 1) (setSlot (f.base + slot) v) := fun _ m => hslots.resolve_right nofun m _
    exact h.look (.peek 0) (fun _ => hset _) m
  | getGlobal name => exact h.getGlobal _ m
  | defineGlobal name =>
    rcases hglobals with hglobals | hne
    · exact h.trans (h.popped m) (hglobals _ _)
    · exact absurd rfl (hne name).1
  | setGlobal name =>
    rcases hglobals with hglobals | hne
    · refine h.weaken (j := 0) (h.look (.peek 0) (fun _ => h.look .get fun _ => .ite ?_ (h.fail _)) m) (Nat.zero_le _)
      exact fun m => hglobals m _
    · exact absurd rfl (hne name).2
  | getUpvalue index => exact h.look (.readCell _) (fun _ => h.push _) m
  | setUpvalue index =>
    show R _ m { m with cells := (m.cells.write _ _ m.stack).1, stack := (m.cells.write _ _ m.stack).2 }
    generalize m.cells.write _ _ m.stack = written
    have hwritten : R 0 m (m.withCells written.1) := hcells.resolve_right nofun m _
    exact h.trans hwritten (hslots.resolve_right nofun _ _)
  | closeUpvalue => exact h.trans (hcells.resolve_right nofun m _) (h.popped _)
  | getProperty name => exact h.bind h.pop (fun v => h.look (.getProperty v _) fun _ => h.push _) m
  | setProperty name =>
    refine h.bind h.pop (fun v => h.bind (k := 0) h.pop fun w => h.bind (j := 0) (k := 0) (fun m => ?_)
      fun _ => h.push _) m
    exact gives_setProperty (fun _ _ _ _ => hfields.resolve_right nofun _ _ _ _) fun _ _ => ⟨h.refl m, trivial⟩
  | equal | notEqual | greater | greaterEqual | less | lessEqual | add | subtract | multiply | divide | modulo | not
  | negate =>
    exact gives_operator rfl (fun _ _ => h.trans (h.shrunk m _) (h.pushed _ _)) fun _ _ => ⟨h.shrunk m _, trivial⟩
  | jump distance | loop distance => exact hgo rfl _ m
  | jumpIfFalse distance =>
    refine h.weaken (j := 0) (h.look (.peek 0) (fun _ => .ite (h.inspects (.pure ())) ?_) m) (Nat.zero_le _)
    exact hgo rfl _
  | call arguments =>
    exact h.callValue (hcall.resolve_right nofun) (hnative.imp_right fun hne n heq => hne ⟨n, heq⟩)
  | invoke name arguments =>
    exact h.invoke (hcall.resolve_right nofun) (hnative.imp_right fun hne o n ho hn => hne ⟨o, n, ho, hn⟩)
  | superInvoke name arguments =>
    exact h.weaken (h.invokeParent (hcall.resolve_right nofun) _ _ m) (Nat.le_add_left _ _)
  | closure index captures =>
    refine gives_makeClosure (fun _ => ⟨h.refl m, trivial⟩) fun q _ => ?_
    refine (gives_captureCells_cells f captures).mono (fun _ _ hm' => ?_) fun _ _ hstop => hstop.elim
    obtain ⟨cells, rfl⟩ := hm'
    exact h.trans (hcells.resolve_right nofun m cells) (h.trans (h.nextSerial _ _) (h.pushed _ _))
  | ret =>
    have hclosed : R 0 m (m.withCells (m.cells.closeFrom f.base m.stack.pop)) := hcells.resolve_right nofun m _
    have hpopped : R 0 m ((m.withCells (m.cells.closeFrom f.base m.stack.pop)).withFrames m.frames.pop) :=
      h.trans hclosed (hframes.resolve_right nofun _ _ (by simp))
    have hleft : R 1 m (m.leave f.base) := h.trans hpopped (hslots.resolve_right nofun _ _)
    exact gives_leave f (fun _ => ⟨hleft, trivial⟩) fun _ => h.trans hleft (h.pushed _ _)
  | object name =>
    have hnoted : R 0 m (m.note (.constructing (f.code.nameAt name))) := h.events m _
    have hmade : R 0 m ((m.note (.constructing (f.code.nameAt name))).withObjects
        (m.objects.push { name := f.code.nameAt name })) := h.trans hnoted (hobjects.resolve_right nofun _ _)
    exact h.trans hmade (hslots.resolve_right nofun _ _)
  | compile =>
    refine h.bind (k := 0) h.pop (fun v => ?_) m
    split
    · exact h.load _ _
    · exact h.fail _
  | inherit =>
    refine h.bind (k := 0) h.pop (fun v m => ?_) m
    refine gives_inherit (fun _ _ _ _ _ _ => ?_) fun _ _ _ => ⟨h.events _ _, trivial⟩
    exact h.trans (h.events _ _) (hobjects.resolve_right nofun _ _)
  | field name =>
    refine h.bind (k := 0) h.pop (fun v m => ?_) m
    exact gives_defineField (fun _ _ => hfields.resolve_right nofun _ _ _ _) fun _ _ => ⟨h.refl m, trivial⟩
  | method name =>
    refine h.bind (k := 0) h.pop (fun v m => ?_) m
    exact gives_defineMethod (fun _ _ _ _ => hmethods.resolve_right nofun _ _ _ _) fun _ _ => ⟨h.refl m, trivial⟩
  | super => exact h.bind h.pop (fun v => h.look (.parentOf f v) fun _ => h.push _) m

theorem Machine.blind_cells : Blind fun m m' => m'.cells = m.cells where
  refl _ := rfl
  trans h h' := h'.trans h
  stack _ _ := rfl
  frames _ _ := rfl
  nextSerial _ _ := rfl
  events _ _ := rfl
  library _ _ _ := rfl

theorem Exec.execute_cells (hi : i.changesCells = false) :
    KeepsFrom (fun m m' => m'.cells = m.cells) m (execute f next i) :=
  blind_cells.graded.execute (.inl blind_cells.stack) (.inl blind_cells.call) (.inr hi) (.inl fun _ _ _ _ => rfl)
    (.inl fun _ _ _ _ => rfl) (.inl fun _ _ _ => rfl) (.inl fun _ _ => rfl) (.inl fun _ _ => rfl) (.inl fun _ _ => rfl)

theorem Instruction.changes_of_isQuiet (hi : i.isQuiet) : i.changesCells = false ∧ i.changesObjects = false ∧
    i.bringsForth = false ∧ ∀ name, i ≠ .defineGlobal name ∧ i ≠ .setGlobal name := by
  cases i with
  | defineGlobal _ | setGlobal _ | setUpvalue _ | closeUpvalue | setProperty _ | closure _ _ | ret | object _
  | inherit | field _ | method _ => cases hi
  | _ => exact ⟨rfl, rfl, rfl, fun _ => ⟨nofun, nofun⟩⟩

section

variable {R : Machine → Machine → Prop}

/-- A comparison that does not look at captured variables and members of objects sees a difference only in
the calls, in how the objects are related, in the global variables and in what is printed. -/
theorem Machine.Coarse.execute (h : Coarse R) (hcall : Shortsighted R ∨ i.called? = none)
    (hcells : ∀ (m : Machine) cells, R m { m with cells }) (hfields : ∀ (m : Machine) (o : ObjectId) name v,
      R m { m with objects := m.objects.modify o (·.putField name v) })
    (hmethods : ∀ (m : Machine) (o : ObjectId) name c,
      R m { m with objects := m.objects.modify o (·.putMethod name c) })
    (hframes : (∀ (m : Machine) (frames : Array Frame), frames.size ≤ m.frames.size → R m { m with frames }) ∨
      i.leavesPath = false)
    (hobjects : (∀ (m : Machine) objects, R m { m with objects }) ∨ i.bringsForth = false)
    (hglobals : (∀ (m : Machine) globals, R m { m with globals }) ∨
      ∀ name, i ≠ .defineGlobal name ∧ i ≠ .setGlobal name)
    (hnative : (∀ (m : Machine) output, R m { m with output }) ∨ ¬ m.CallsNative f i) :
    KeepsFrom R m (Exec.execute f next i) :=
  h.graded.execute (.inl h.stack) (hcall.imp_left fun h => h.call) (.inl hcells) (.inl hfields) (.inl hmethods)
    hframes hobjects hglobals hnative

theorem Machine.Blind.execute_quiet (h : Blind R) (hi : i.isQuiet)
    (hnative : (∀ (m : Machine) output, R m { m with output }) ∨ ¬ m.CallsNative f i) :
    KeepsFrom R m (Exec.execute f next i) := by
  obtain ⟨hcells, hobjects, hforth, hglobals⟩ := Instruction.changes_of_isQuiet hi
  exact h.graded.execute (.inl h.stack) (.inl h.call) (.inr hcells) (.inr hobjects) (.inr hobjects)
    (.inl fun m frames _ => h.frames m frames) (.inr hforth) (.inr hglobals) hnative

theorem Machine.Coarse.answer (h : Coarse R) (haction : Session.Answers r action)
    (hneeded : (Stop.request r).Needed m) (output : String) : KeepsFrom R { m with output } action :=
  h.graded.answer haction hneeded output

theorem Machine.Shortsighted.startProgram (h : Shortsighted R) : Keeps R Exec.startProgram :=
  h.graded.startProgram h.call

theorem Machine.Shortsighted.construction (h : Shortsighted R) (p : Program) : Keeps R (Exec.construction p) :=
  h.graded.construction h.call p

/-! ### Instructions that stop -/

/-- An instruction that fails, or asks its host for something, has not changed anything but the stack, the
calls and the library. -/
theorem Machine.Blind.execute_stop (h : Blind R) (hout : ∀ (m : Machine) output, R m { m with output }) :
    (execute f next i).Gives m (fun _ _ => True)
      fun stop m' => (∀ v, stop ≠ .finished v) → R m m' ∧ stop.Needed m' := by
  by_cases hi : i.isQuiet
  · exact (h.execute_quiet hi (.inl hout)).mono (fun _ _ _ => trivial) fun _ _ heq _ => heq
  cases i with
  | defineGlobal _ | setUpvalue _ | closeUpvalue | object _ => trivial
  | setGlobal name =>
    show Exec.Gives (if _ then _ else _) m _ _
    rw [gives_ite]
    exact ⟨fun _ => trivial, fun _ _ => ⟨h.refl m, trivial⟩⟩
  | setProperty name =>
    unfold execute
    rw [gives_bind, gives_pop, gives_bind, gives_pop, gives_bind]
    exact gives_setProperty (fun _ _ _ _ => trivial) fun _ _ _ => ⟨h.stack m _, trivial⟩
  | closure index captures =>
    refine gives_makeClosure (fun _ _ => ⟨h.refl m, trivial⟩) fun q _ => ?_
    exact (gives_captureCells_cells f captures).mono (fun _ _ _ => trivial) fun _ _ hstop => hstop.elim
  | ret => exact gives_leave f (fun _ hne => absurd rfl (hne _)) fun _ => trivial
  | inherit =>
    unfold execute
    rw [gives_bind, gives_pop]
    exact gives_inherit (fun _ _ _ _ _ _ => trivial) fun _ _ _ _ =>
      ⟨h.trans (h.stack m _) (h.events _ _), trivial⟩
  | field name =>
    unfold execute
    rw [gives_bind, gives_pop]
    exact gives_defineField (fun _ _ => trivial) fun _ _ _ => ⟨h.stack m _, trivial⟩
  | method name =>
    unfold execute
    rw [gives_bind, gives_pop]
    exact gives_defineMethod (fun _ _ _ _ => trivial) fun _ _ _ => ⟨h.stack m _, trivial⟩
  | _ => exact absurd rfl hi

/-- A comparison that does not look at variables and objects sees no difference at all, but for the global
variables and for what is printed. -/
theorem Machine.Blind.execute (h : Blind R) (hcells : ∀ (m : Machine) cells, R m { m with cells })
    (hobjects : ∀ (m : Machine) objects, R m { m with objects })
    (hglobals : (∀ (m : Machine) globals, R m { m with globals }) ∨
      ∀ name, i ≠ .defineGlobal name ∧ i ≠ .setGlobal name)
    (hnative : (∀ (m : Machine) output, R m { m with output }) ∨ ¬ m.CallsNative f i) :
    KeepsFrom R m (Exec.execute f next i) :=
  h.toCoarse.execute (.inl h.toShortsighted) hcells (fun m _ _ _ => hobjects m _) (fun m _ _ _ => hobjects m _)
    (.inl fun m frames _ => h.frames m frames) (.inl hobjects) hglobals hnative

end

end

/-! ### Whole turns -/

/-- A comparison that sees at most that there are more calls, or that a library grows. -/
structure Machine.Lenient (R : Machine → Machine → Prop) : Prop extends Machine.Shortsighted R where
  frames : ∀ (m : Machine) (frames : Array Frame), frames.size ≤ m.frames.size → R m { m with frames }
  cells : ∀ (m : Machine) cells, R m { m with cells }
  objects : ∀ (m : Machine) objects, R m { m with objects }
  globals : ∀ (m : Machine) globals, R m { m with globals }
  output : ∀ (m : Machine) output, R m { m with output }

section

variable {R : Machine → Machine → Prop} {m : Machine}

theorem Machine.Lenient.execute (h : Lenient R) (f : Frame) (next : Nat) (i : Instruction) :
    Keeps R (Exec.execute f next i) :=
  fun _ => h.toCoarse.execute (.inl h.toShortsighted) h.cells (fun m _ _ _ => h.objects m _)
    (fun m _ _ _ => h.objects m _) (.inl h.frames) (.inl h.objects) (.inl h.globals) (.inl h.output)

theorem Machine.Lenient.step (h : Lenient R) : Keeps R Exec.step := by
  have hbind : ∀ {α β : Type} {x : Exec α} {f : α → Exec β}, Keeps R x → (∀ a, Keeps R (f a)) → Keeps R (x >>= f) :=
    h.graded.bind (j := 0) (k := 0)
  have hlook : ∀ {α : Type} {x : Exec α}, Inspects x → Keeps R x := h.graded.inspects (k := 0)
  refine hbind h.startProgram fun _ => hbind (hlook .get) fun m => ?_
  split
  · exact fun m => ⟨h.refl m, trivial⟩
  · rename_i frame _
    have htrace : Keeps R (traceInstruction frame) := by
      refine hbind (hlook .get) fun m => .ite ?_ (hlook (.pure ()))
      exact hbind (hlook .get) fun _ => hbind (hlook .get) fun _ m => h.events m _
    refine .ite (fun m => ⟨h.refl m, trivial⟩) (hbind htrace fun _ => ?_)
    split
    · exact hlook (.fail _)
    · exact hbind (fun m => h.frames m _ (by simp)) fun _ => h.execute _ _ _

theorem Session.Turn.keeps {result} (hturn : Turn m result) (h : Lenient R) :
    (∀ m', result = .ok () m' → R m m') ∧ ∀ stop m', result = .error stop m' → R m m' := by
  cases hturn with
  | step heq _ =>
    exact ⟨fun m' hresult => (h.step m).ok (heq.trans hresult),
      fun stop m' hresult => ((h.step m).error (heq.trans hresult)).1⟩
  | @answer _ _ output _ _ heq haction hresult =>
    obtain ⟨hasked, hneeded⟩ := (h.step m).error heq
    have hanswer := h.answer haction hneeded output
    have hshown := h.trans hasked (h.output _ output)
    exact ⟨fun m' heq' => h.trans hshown (hanswer.ok (hresult.trans heq')),
      fun stop m' heq' => h.trans hshown (hanswer.error (hresult.trans heq')).1⟩

theorem Machine.lenient_enrolls : Lenient fun m m' => m.library.Enrolls m'.library where
  refl _ := .refl _
  trans h h' := h.trans h'
  stack _ _ := .refl _
  call _ _ _ _ := .refl _
  frames _ _ _ := .refl _
  nextSerial _ _ := .refl _
  events _ _ := .refl _
  library _ _ h := h
  cells _ _ := .refl _
  objects _ _ := .refl _
  globals _ _ := .refl _
  output _ _ := .refl _

theorem Exec.step_enrolls : KeepsFrom (fun m m' => m.library.Enrolls m'.library) m step := lenient_enrolls.step m

end

/-- There are the same calls, and others on top that are about to start. -/
def Machine.Deepens (m m' : Machine) : Prop :=
  ∃ entered, m'.calls = entered ++ m.calls ∧ ∀ g ∈ entered, g.position = 0

theorem Machine.Deepens.of_eq {m m' : Machine} (h : m'.frames = m.frames) : m.Deepens m' :=
  ⟨[], by rw [calls, calls, h, List.nil_append], nofun⟩

theorem Machine.shortsighted_deepens : Shortsighted Deepens where
  refl _ := .of_eq rfl
  trans h h' := by
    obtain ⟨entered, hcalls, hentered⟩ := h
    obtain ⟨entered', hcalls', hentered'⟩ := h'
    refine ⟨entered' ++ entered, by rw [hcalls', hcalls, List.append_assoc], fun g hg => ?_⟩
    exact (List.mem_append.mp hg).elim (hentered' g) (hentered g)
  stack _ _ := .of_eq rfl
  call m f hf _ := by
    refine ⟨[f], calls_push, fun g hg => ?_⟩
    rw [List.mem_singleton.mp hg]
    exact hf
  nextSerial _ _ := .of_eq rfl
  events _ _ := .of_eq rfl
  library _ _ _ := .of_eq rfl

namespace Session

variable {m : Machine}

theorem Next.enrolls (hnext : Next s s') : s.machine.library.Enrolls s'.machine.library := by
  cases hnext with
  | script hcompiled henter =>
    cases henter
    exact .refl _
  | construction hload hresult hstart =>
    exact (Library.brings_load hload).enrolls.trans ((lenient_enrolls.construction _ _).ok hstart)
  | notStarted hload hresult hstart =>
    exact (Library.brings_load hload).enrolls.trans ((lenient_enrolls.construction _ _).error hstart).1
  | notLoaded hload hresult => exact (Library.brings_load hload).enrolls
  | native n => exact .refl _
  | turn ha hturn => exact (hturn.keeps lenient_enrolls).1 _ rfl
  | finish ha hturn | fault ha hturn =>
    have henrolls := (hturn.keeps lenient_enrolls).2 _ _ rfl
    exact henrolls
  | shown output events => exact .refl _

theorem Leads.enrolls (h : s.Leads s') : s.machine.library.Enrolls s'.machine.library := by
  induction h with
  | refl => exact .refl _
  | tail _ hnext ih => exact ih.trans hnext.enrolls

end Session

/-! ### Values that are not touched -/

/-- All but the topmost values are still on the stack. -/
structure Machine.Spares (taken : Nat) (m m' : Machine) : Prop where
  size_le : m.stack.size ≤ m'.stack.size + taken
  below : ∀ slot, slot + taken < m.stack.size → m'.stack[slot]? = m.stack[slot]?

namespace Machine.Spares

variable {m m1 m2 : Machine} {taken taken' : Nat}

theorem of_eq (heq : m1.stack = m.stack) : m.Spares 0 m1 :=
  ⟨Nat.le_of_eq (congrArg Array.size heq).symm, fun _ _ => by rw [heq]⟩

theorem mono (h : m.Spares taken m1) (hle : taken ≤ taken') : m.Spares taken' m1 :=
  ⟨Nat.le_trans h.size_le (Nat.add_le_add_left hle _),
    fun slot hslot => h.below slot (Nat.lt_of_le_of_lt (Nat.add_le_add_left hle _) hslot)⟩

theorem trans (h : m.Spares taken m1) (h' : m1.Spares taken' m2) : m.Spares (taken + taken') m2 := by
  have hle := h.size_le
  have hle' := h'.size_le
  refine ⟨by omega, fun slot hslot => ?_⟩
  rw [h'.below slot (by omega), h.below slot (by omega)]

theorem trans_of_size_eq (h : m.Spares taken m1) (hsize : m1.stack.size = m.stack.size)
    (h' : m1.Spares taken m2) : m.Spares taken m2 := by
  refine ⟨hsize ▸ h'.size_le, fun slot hslot => ?_⟩
  rw [h'.below slot (by omega), h.below slot hslot]

theorem push (m : Machine) (v : Value) : m.Spares 0 (m.withStack (m.stack.push v)) := by
  refine ⟨?_, fun slot hslot => ?_⟩
  · show m.stack.size ≤ (m.stack.push v).size + 0
    rw [Array.size_push]
    omega
  · show (m.stack.push v)[slot]? = _
    rw [Array.getElem?_push, if_neg (by omega)]

theorem shrink (m : Machine) (count : Nat) : m.Spares count (m.withStack (m.stack.shrink (m.stack.size - count))) := by
  refine ⟨?_, fun slot hslot => getElem?_shrink (by omega)⟩
  show m.stack.size ≤ (m.stack.shrink (m.stack.size - count)).size + count
  rw [Array.size_shrink]
  omega

theorem pop (m : Machine) : m.Spares 1 (m.withStack m.stack.pop) := by
  refine ⟨?_, fun slot hslot => ?_⟩
  · show m.stack.size ≤ m.stack.pop.size + 1
    rw [Array.size_pop]
    omega
  · show m.stack.pop[slot]? = _
    rw [Array.getElem?_pop, if_pos (by omega)]

theorem setSlot (v : Value) (hslot : m.stack.size ≤ slot + taken) :
    m.Spares taken (m.withStack (m.stack.setIfInBounds slot v)) := by
  refine ⟨?_, fun slot' hslot' => Array.getElem?_setIfInBounds_ne (by omega)⟩
  show m.stack.size ≤ (m.stack.setIfInBounds slot v).size + taken
  rw [Array.size_setIfInBounds]
  omega

end Machine.Spares

/-- All but the values that an instruction takes stay in their slots, unless it is made to put values there. -/
theorem Machine.graded_spares : Graded Spares where
  refl _ := .of_eq rfl
  trans h h' := h.trans h'
  again h hsize h' := h.trans_of_size_eq hsize h'
  mono h hle := h.mono hle
  pushed m v := .push m v
  popped m := .pop m
  shrunk m count := .shrink m count
  replaced _ v hslot := .setSlot v hslot
  nextSerial _ _ := .of_eq rfl
  events _ _ := .of_eq rfl
  library _ _ _ := .of_eq rfl

theorem Exec.execute_spares {m : Machine} {f : Frame} {i : Instruction} {next : Nat} (hi : i.movesSlots = false) :
    KeepsFrom (Spares i.taken) m (execute f next i) :=
  graded_spares.execute (.inr hi) (.inl fun _ _ _ _ => .of_eq rfl) (.inl fun _ _ => .of_eq rfl)
    (.inl fun _ _ _ _ => .of_eq rfl) (.inl fun _ _ _ _ => .of_eq rfl) (.inl fun _ _ _ => .of_eq rfl)
    (.inl fun _ _ => .of_eq rfl) (.inl fun _ _ => .of_eq rfl) (.inl fun _ _ => .of_eq rfl)

end Mudscript
