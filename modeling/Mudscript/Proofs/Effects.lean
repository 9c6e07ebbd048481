import Mathlib
import Mudscript.Machine.Run

/-!
# What actions do

An action of the machine starts in a state and ends in another, with a result or with a stop.
`Exec.Gives` says what is true at its end. It is computed along the action: there is one rule for
each way to build an action, and one for each of the small actions all others are made of.
-/

namespace Mudscript

variable {f : Frame}

namespace Machine

@[simps] def withStack (m : Machine) (stack : Array Value) : Machine := { m with stack }

@[simps] def withFrames (m : Machine) (frames : Array Frame) : Machine := { m with frames }

@[simps] def withCells (m : Machine) (cells : Cells) : Machine := { m with cells }

@[simps] def withGlobals (m : Machine) (globals : Std.HashMap String Value) : Machine :=
  { m with globals }

@[simps] def withObjects (m : Machine) (objects : Objects) : Machine := { m with objects }

@[simps] def withSerial (m : Machine) (nextSerial : Nat) : Machine := { m with nextSerial }

/-- A function of a program is on top of the stack, about to be called. -/
def opening (m : Machine) (stack : Array Value) (p : Program) : Machine :=
  { m with stack := stack.push (.closure ⟨m.nextSerial, p.routine, #[]⟩), nextSerial := m.nextSerial + 1 }

/-- The innermost call is gone, with its values from the given base on; the result was taken first. -/
def leave (m : Machine) (base : Nat) : Machine :=
  { m with
    cells := m.cells.closeFrom base m.stack.pop
    frames := m.frames.pop
    stack := m.stack.pop.shrink base }

end Machine

/-- Faults that no program can cause, but only code that is not well formed. -/
def Fault.IsInternal : Fault → Prop
  | .unknownOperation _ | .inheritNonObject _ | .closureOfNonFunction | .noProgram
  | .memberOfNonObject _ | .methodNotFunction _ _ | .pathNotText _ | .programReturned _ => True
  | _ => False

def Value.IsPlain : Value → Prop
  | .nil | .bool _ | .number _ | .text _ => True
  | _ => False

namespace Exec

variable {α β : Type}

/-- What is true when an action ends: `Q` of its result, or `E` of the reason why it stops, and of the
state in either case. -/
def Gives (x : Exec α) (m : Machine) (Q : α → Machine → Prop) (E : Stop → Machine → Prop) : Prop :=
  match x m with
  | .ok a m' => Q a m'
  | .error stop m' => E stop m'

variable {m m' : Machine} {Q Q' : α → Machine → Prop} {E E' : Stop → Machine → Prop}

theorem Gives.ok {x : Exec α} {a : α} (h : x.Gives m Q E) (heq : x m = .ok a m') : Q a m' := by
  rw [Gives, heq] at h
  exact h

theorem Gives.error {x : Exec α} {stop : Stop} (h : x.Gives m Q E) (heq : x m = .error stop m') : E stop m' := by
  rw [Gives, heq] at h
  exact h

theorem Gives.mono {x : Exec α} (h : x.Gives m Q E) (hQ : ∀ a m', Q a m' → Q' a m')
    (hE : ∀ stop m', E stop m' → E' stop m') : x.Gives m Q' E' := by
  unfold Gives at h ⊢
  cases heq : x m with
  | ok a m' => exact hQ a m' (by rw [heq] at h; exact h)
  | error stop m' => exact hE stop m' (by rw [heq] at h; exact h)

theorem Gives.and {x : Exec α} (h : x.Gives m Q E) (h' : x.Gives m Q' E') :
    x.Gives m (fun v m' => Q v m' ∧ Q' v m') fun stop m' => E stop m' ∧ E' stop m' := by
  unfold Gives at h h' ⊢
  cases heq : x m with
  | ok v m' =>
    rw [heq] at h h'
    exact ⟨h, h'⟩
  | error stop m' =>
    rw [heq] at h h'
    exact ⟨h, h'⟩

theorem Gives.self {x : Exec α} : x.Gives m (fun r m' => x m = .ok r m') fun stop m' => x m = .error stop m' := by
  unfold Gives
  cases x m <;> rfl

/-! ### Ways to build an action -/

theorem get_bind (f : Machine → Exec α) (m : Machine) : (get >>= f) m = f m m := rfl

theorem bind_of_ok {x : Exec α} {f : α → Exec β} {a m'} (h : x m = .ok a m') : (x >>= f) m = f a m' := by
  show EStateM.bind x f m = _
  rw [EStateM.bind, h]

@[simp] theorem gives_bind (x : Exec α) (f : α → Exec β) {Q : β → Machine → Prop} :
    (x >>= f).Gives m Q E ↔ x.Gives m (fun a m' => (f a).Gives m' Q E) E := by
  show (match EStateM.bind x f m with | .ok a m' => Q a m' | .error stop m' => E stop m') ↔ _
  unfold EStateM.bind Gives
  cases x m <;> rfl

@[simp] theorem gives_map (x : Exec α) (f : α → β) {Q : β → Machine → Prop} :
    (f <$> x).Gives m Q E ↔ x.Gives m (fun a m' => Q (f a) m') E := by
  show (match EStateM.map f x m with | .ok a m' => Q a m' | .error stop m' => E stop m') ↔ _
  unfold EStateM.map Gives
  cases x m <;> rfl

@[simp] theorem gives_discard (x : Exec α) {Q : Unit → Machine → Prop} :
    (discard x).Gives m Q E ↔ x.Gives m (fun _ m' => Q () m') E := by
  have heq : discard x = (fun _ => ()) <$> x := rfl
  rw [heq, gives_map]

@[simp] theorem gives_get {Q : Machine → Machine → Prop} : (get : Exec Machine).Gives m Q E ↔ Q m m :=
  Iff.rfl

@[simp] theorem gives_modify (f : Machine → Machine) {Q : PUnit → Machine → Prop} :
    (modify f : Exec PUnit).Gives m Q E ↔ Q () (f m) := Iff.rfl

@[simp] theorem gives_modifyGet (f : Machine → α × Machine) :
    (modifyGet f : Exec α).Gives m Q E ↔ Q (f m).1 (f m).2 := Iff.rfl

theorem gives_ite {p : Prop} [Decidable p] (x y : Exec α) :
    (if p then x else y).Gives m Q E ↔ (p → x.Gives m Q E) ∧ (¬ p → y.Gives m Q E) := by
  by_cases hp : p <;> simp [hp]

/-! ### The small actions -/

@[simp] theorem gives_note (e : Event) {Q : Unit → Machine → Prop} : (note e).Gives m Q E ↔ Q () (m.note e) := Iff.rfl

@[simp] theorem gives_push (v : Value) {Q : Unit → Machine → Prop} :
    (push v).Gives m Q E ↔ Q () (m.withStack (m.stack.push v)) := Iff.rfl

@[simp] theorem gives_pop {Q : Value → Machine → Prop} :
    pop.Gives m Q E ↔ Q (m.stack.back?.getD .nil) (m.withStack m.stack.pop) := Iff.rfl

@[simp] theorem gives_peek (depth : Nat) {Q : Value → Machine → Prop} :
    (peek depth).Gives m Q E ↔ Q (m.stack[m.stack.size - 1 - depth]?.getD .nil) m := Iff.rfl

@[simp] theorem gives_setSlot (slot : Nat) (v : Value) {Q : Unit → Machine → Prop} :
    (setSlot slot v).Gives m Q E ↔ Q () (m.withStack (m.stack.setIfInBounds slot v)) := Iff.rfl

@[simp] theorem gives_objectName (o : ObjectId) {Q : String → Machine → Prop} :
    (objectName o).Gives m Q E ↔ Q (Objects.nameOf m.objects o) m := Iff.rfl

@[simp] theorem gives_newClosure (r : Routine) {Q : Closure → Machine → Prop} : (newClosure r).Gives m Q E ↔
      Q ⟨m.nextSerial, r, #[]⟩ (m.withSerial (m.nextSerial + 1)) := Iff.rfl

/-! ### Calls -/

theorem gives_callClosure {c : Closure} {arguments : Nat} {Q : Unit → Machine → Prop}
    (harity : E (.fault (.wrongArity c.routine.arity arguments)) m) (hframes : E (.fault .stackOverflow) m)
    (hcall : arguments = c.routine.arity → m.frames.size < m.settings.maxFrames →
      Q () (m.withFrames (m.frames.push ⟨c, 0, m.stack.size - arguments - 1⟩))) :
    (callClosure c arguments).Gives m Q E := by
  unfold callClosure
  by_cases hn : arguments ≠ c.routine.arity
  · rw [if_pos hn]
    exact harity
  · rw [if_neg hn]
    show (if m.settings.maxFrames ≤ m.frames.size then _ else _ : Exec Unit).Gives m Q E
    by_cases hm : m.settings.maxFrames ≤ m.frames.size
    · rw [if_pos hm]
      exact hframes
    · rw [if_neg hm]
      exact hcall (Decidable.not_not.mp hn) (Nat.lt_of_not_le hm)

theorem gives_callProgram {slot : Nat} {p : Program} {Q : Unit → Machine → Prop}
    (hslot : m.stack[slot]? = some (.program p)) :
    (callProgram slot).Gives m Q E ↔ (callClosure ⟨m.nextSerial, p.routine, #[]⟩ 0).Gives
      ((m.withSerial (m.nextSerial + 1)).withStack
        (m.stack.setIfInBounds slot (.closure ⟨m.nextSerial, p.routine, #[]⟩))) Q E := by
  unfold callProgram
  rw [gives_bind, gives_get, hslot]
  rfl

theorem setIfInBounds_push {xs : Array α} {x y : α} : (xs.push x).setIfInBounds xs.size y = xs.push y := by
  apply Array.ext_getElem?
  intro i
  rw [Array.getElem?_setIfInBounds, Array.getElem?_push, Array.getElem?_push, Array.size_push]
  by_cases hi : xs.size = i
  · simp [hi]
  · simp [hi, Ne.symm hi]

theorem gives_startProgram_of {Q : Unit → Machine → Prop} (hprogram : ∀ p, m.stack.back? = some (.program p) →
      (callClosure ⟨m.nextSerial, p.routine, #[]⟩ 0).Gives (m.opening m.stack.pop p) Q E)
    (hnone : (∀ p, m.stack.back? ≠ some (.program p)) → Q () m) : startProgram.Gives m Q E := by
  unfold startProgram
  rw [gives_bind, gives_get]
  split
  · rename_i p hback
    obtain ⟨stack, hstack⟩ := Array.back?_eq_some_iff.mp hback
    have hcall := hprogram p hback
    have hset : m.stack.setIfInBounds (m.stack.size - 1) (.closure ⟨m.nextSerial, p.routine, #[]⟩)
        = m.stack.pop.push (.closure ⟨m.nextSerial, p.routine, #[]⟩) := by
      rw [hstack, Array.size_push, Nat.add_sub_cancel, setIfInBounds_push, Array.pop_push]
    rw [gives_bind, gives_get, gives_callProgram (Array.back?_eq_getElem? ▸ hback), hset]
    exact hcall
  · rename_i hne
    exact hnone hne

theorem gives_leave (f : Frame) {Q : Unit → Machine → Prop}
    (hlast : (m.leave f.base).frames = #[] → E (.finished (m.stack.back?.getD .nil)) (m.leave f.base))
    (hnext : (m.leave f.base).frames ≠ #[] → Q () ((m.leave f.base).withStack
      ((m.leave f.base).stack.push (m.stack.back?.getD .nil)))) : (leave f).Gives m Q E := by
  show (if m.frames.pop.isEmpty = true then _ else _ : Exec Unit).Gives (m.leave f.base) Q E
  by_cases hempty : m.frames.pop.isEmpty = true
  · rw [if_pos hempty]
    exact hlast (Array.isEmpty_iff.mp hempty)
  · rw [if_neg hempty]
    exact hnext fun heq => hempty (Array.isEmpty_iff.mpr heq)

/-- Every fault that a program can cause may happen. -/
def MayFault (E : Stop → Machine → Prop) (m : Machine) : Prop := ∀ f, ¬ Fault.IsInternal f → E (.fault f) m

section

variable {arguments : Nat} {n : Native} {Q : Unit → Machine → Prop}

theorem gives_checkArity (arity : Arity) (hok : Q () m) (hfault : MayFault E m) :
    (checkArity arity arguments).Gives m Q E := by
  unfold checkArity
  split
  · exact (gives_ite _ _).mpr ⟨fun _ => hok, fun _ => hfault _ id⟩
  · exact (gives_ite _ _).mpr ⟨fun _ => hok, fun _ => hfault _ id⟩

/-- A function of the host pushes plain values and its arguments, unless it loads. -/
theorem gives_perform {values} (hpush : ∀ v, v.IsPlain ∨ v ∈ values → Q () (m.withStack (m.stack.push v)))
    (hprint : ∀ output, Q () { m with output, stack := m.stack.push .nil })
    (hload : ∀ path, (load (some n.name) path).Gives m Q E) (htime : E (.request .time) m)
    (hfault : MayFault E m) : (perform n values).Gives m Q E := by
  unfold perform
  cases n.action with
  | clock => exact htime
  | print ending => cases values[0]? <;> exact hprint _
  | load =>
    dsimp only
    split
    · exact hload _
    · exact hfault _ id
  | countArguments | backtrace | stackHeight | openCells => exact hpush _ (.inl trivial)
  | argument i =>
    refine hpush (values[i]?.getD .nil) ?_
    cases hv : values[i]? with
    | none => exact .inl trivial
    | some v => exact .inr (Array.mem_of_getElem? hv)
  | fail => exact hfault _ id

theorem gives_callNative (hperform : (perform n (m.stack.extract (m.stack.size - arguments) m.stack.size)).Gives
      (m.withStack (m.stack.shrink (m.stack.size - arguments)).pop) Q E)
    (hfault : MayFault E m) : (callNative n arguments).Gives m Q E :=
  (gives_bind _ _).mpr (gives_checkArity _ hperform hfault)

theorem gives_callValue (hclosure : ∀ c, m.stack[m.stack.size - 1 - arguments]?.getD .nil = .closure c →
      (callClosure c arguments).Gives m Q E)
    (hnative : ∀ n, m.stack[m.stack.size - 1 - arguments]?.getD .nil = .native n →
      (callNative n arguments).Gives m Q E)
    (hprogram : ∀ p, m.stack[m.stack.size - 1 - arguments]?.getD .nil = .program p → arguments = 0 →
      (callProgram (m.stack.size - 1)).Gives m Q E)
    (hfault : MayFault E m) : (callValue arguments).Gives m Q E := by
  unfold callValue
  rw [gives_bind, gives_peek]
  cases hv : m.stack[m.stack.size - 1 - arguments]?.getD .nil with
  | closure c => exact hclosure c hv
  | native n => exact hnative n hv
  | program p => exact (gives_ite _ _).mpr ⟨hprogram p hv, fun _ => hfault _ id⟩
  | nil | bool _ | number _ | text _ | object _ => exact hfault _ id

/-! ### Making functions -/

theorem gives_captureCells {captures} {P : List Capture → Array CellId → Machine → Prop}
    (h : P [] #[] m) (hcapture : ∀ c ∈ captures, ∀ done ids m, P done ids m →
      (captureCell f c).Gives m (fun id m' => P (done ++ [c]) (ids.push id) m') fun _ _ => False) :
    (captureCells f captures #[]).Gives m (fun ids m' => P captures ids m') E := by
  suffices hall : ∀ todo done ids m, (∀ c ∈ todo, c ∈ captures) → P done ids m →
      (captureCells f todo ids).Gives m (fun ids m' => P (done ++ todo) ids m') E from
    hall captures [] #[] m (fun _ hc => hc) h
  intro todo
  induction todo with
  | nil =>
    intro done ids m _ h
    show P (done ++ []) ids m
    rwa [List.append_nil]
  | cons c todo ih =>
    intro done ids m htodo h
    obtain ⟨hc, htodo⟩ := List.forall_mem_cons.mp htodo
    unfold captureCells
    rw [gives_bind]
    refine (hcapture c hc done ids m h).mono (fun id m1 h1 => ?_) fun _ _ hstop => hstop.elim
    have hrest := ih _ _ m1 htodo h1
    rwa [List.append_assoc, List.singleton_append] at hrest

theorem gives_makeClosure {index : Nat} {captures}
    (hnone : f.code.routineAt? index = none → E (.fault .closureOfNonFunction) m)
    (hmake : ∀ q, f.code.routineAt? index = some q → (captureCells f captures #[]).Gives m (fun ids m' =>
      Q () ((m'.withSerial (m'.nextSerial + 1)).withStack (m'.stack.push (.closure ⟨m'.nextSerial, q, ids⟩)))) E) :
    (makeClosure f index captures).Gives m Q E := by
  unfold makeClosure
  cases hq : f.code.routineAt? index with
  | none => exact hnone hq
  | some q => exact (gives_bind _ _).mpr (hmake q hq)

/-! ### Members -/

variable {name : String} {v : Value}

theorem gives_expectObject {Q : ObjectId → Machine → Prop} (hobject : ∀ o, v = .object o → Q o m)
    (hfault : MayFault E m) : (expectObject v name).Gives m Q E := by
  cases v with
  | object o => exact hobject o rfl
  | _ => exact hfault _ id

theorem gives_getProperty {Q : Value → Machine → Prop}
    (hvalue : ∀ o w, v = .object o → m.objects.property? o name = some w → Q w m)
    (hfault : MayFault E m) : (getProperty v name).Gives m Q E := by
  unfold getProperty
  rw [gives_bind]
  refine gives_expectObject (fun o ho => ?_) hfault
  rw [gives_bind, gives_get]
  cases hw : Objects.property? m.objects o name with
  | some w => exact hvalue o w ho hw
  | none => exact hfault _ id

/-- Calling a member is calling a method with its receiver, or any other value in place of it. -/
theorem gives_invoke (hclosure : ∀ o c, m.stack[m.stack.size - 1 - arguments]?.getD .nil = .object o →
      m.objects.property? o name = some (.closure c) → (callClosure c arguments).Gives m Q E)
    (hvalue : ∀ o v, m.stack[m.stack.size - 1 - arguments]?.getD .nil = .object o →
      m.objects.property? o name = some v → (callValue arguments).Gives
        (m.withStack (m.stack.setIfInBounds (m.stack.size - 1 - arguments) v)) Q E)
    (hfault : MayFault E m) : (invoke name arguments).Gives m Q E := by
  unfold invoke
  rw [gives_bind, gives_peek, gives_bind]
  refine gives_getProperty (fun o v ho hv => ?_) hfault
  cases v with
  | closure c =>
    exact (gives_ite _ _).mpr ⟨fun _ => hclosure o c ho hv, fun _ => hvalue o _ ho hv⟩
  | nil | bool _ | number _ | text _ | object _ | native _ | program _ => exact hvalue o _ ho hv

theorem gives_invokeParent (hmethod : ∀ o c, m.stack.back?.getD .nil = .object o →
      m.objects.method? o name = some c → (callClosure c arguments).Gives (m.withStack m.stack.pop) Q E)
    (hfault : MayFault E (m.withStack m.stack.pop)) :
    (invokeParent name arguments).Gives m Q E := by
  unfold invokeParent
  rw [gives_bind, gives_pop, gives_bind]
  refine gives_expectObject (fun o ho => ?_) hfault
  rw [gives_bind, gives_get]
  cases hc : Objects.method? (m.withStack m.stack.pop).objects o name with
  | some c => exact hmethod o c ho hc
  | none => exact hfault _ id

theorem gives_setProperty {w : Value} (hset : ∀ o holder, v = .object o → m.objects.holder? o name = some holder →
      Q () (m.withObjects (m.objects.modify holder (·.putField name w))))
    (hfault : MayFault E m) : (setProperty v name w).Gives m Q E := by
  unfold setProperty
  rw [gives_bind]
  refine gives_expectObject (fun o ho => ?_) hfault
  rw [gives_bind, gives_get]
  cases hholder : Objects.holder? m.objects o name with
  | some holder => exact hset o holder ho hholder
  | none => exact hfault _ id

theorem gives_parentOf {Q : ObjectId → Machine → Prop}
    (hparent : ∀ o parent, v = .object o → m.objects.parent? ((m.objects.named? o
      (f.closure.routine.owner.getD f.closure.routine.name)).getD o) = some parent → Q parent m)
    (hfault : MayFault E m) : (parentOf f v).Gives m Q E := by
  unfold parentOf
  cases v with
  | object o =>
    rw [gives_bind, gives_get]
    dsimp only
    split
    · exact hparent o _ rfl ‹_›
    · exact hfault _ id
  | _ => exact hfault _ id

theorem gives_constructing {Q : ObjectId → Machine → Prop}
    (hobject : ∀ o, m.stack[m.stack.size - 1]?.getD .nil = .object o → Q o m)
    (hfault : ∀ f, (∀ o, m.stack[m.stack.size - 1]?.getD .nil ≠ .object o) → E (.fault f) m) :
    constructing.Gives m Q E := by
  unfold constructing
  rw [gives_bind, gives_peek]
  cases hv : m.stack[m.stack.size - 1 - 0]?.getD .nil with
  | object o => exact hobject o hv
  | _ => exact hfault _ fun o ho => nomatch hv.symm.trans ho

theorem gives_defineField (hobject : ∀ o, m.stack[m.stack.size - 1]?.getD .nil = .object o →
      Q () (m.withObjects (m.objects.modify o (·.putField name v))))
    (hfault : ∀ f, (∀ o, m.stack[m.stack.size - 1]?.getD .nil ≠ .object o) → E (.fault f) m) :
    (defineField name v).Gives m Q E :=
  (gives_bind _ _).mpr (gives_constructing hobject hfault)

theorem gives_defineMethod (hobject : ∀ o c, v = .closure c → m.stack[m.stack.size - 1]?.getD .nil = .object o →
      Q () (m.withObjects (m.objects.modify o (·.putMethod name c))))
    (hfault : ∀ f, (∀ o c, v = .closure c → m.stack[m.stack.size - 1]?.getD .nil ≠ .object o) → E (.fault f) m) :
    (defineMethod name v).Gives m Q E := by
  unfold defineMethod
  cases v with
  | closure c =>
    exact (gives_bind _ _).mpr (gives_constructing (fun o => hobject o c rfl) fun f hne => hfault f fun o _ _ => hne o)
  | _ => exact hfault _ nofun

theorem gives_inherit (hlink : ∀ o p events, v = .object p → m.stack[m.stack.size - 1]?.getD .nil = .object o →
      m.objects.parent? o = none → Q () (({ m with events } : Machine).withObjects (m.objects.link o p)))
    (hfault : ∀ f events, (f.IsInternal → ∀ o p, v = .object p → m.stack[m.stack.size - 1]?.getD .nil ≠ .object o) →
      E (.fault f) { m with events }) : (inherit v).Gives m Q E := by
  unfold inherit
  cases v with
  | object p =>
    rw [gives_bind]
    refine gives_constructing (fun o ho => ?_) fun f hne => hfault f m.events fun _ o _ _ => hne o
    rw [gives_bind, gives_objectName, gives_bind, gives_objectName, gives_bind, gives_note]
    unfold link
    rw [gives_bind, gives_get]
    cases hparent : Objects.parent? (m.note _).objects o with
    | some old => exact hfault _ _ False.elim
    | none => exact hlink o p _ rfl ho hparent
  | _ => exact hfault _ m.events fun _ _ => nofun

end

end Exec

/-! ### Computed runs -/

/-- A statement about the results of a computation that the computation itself can settle: it holds if
what is seen in the end is what is wanted. -/
class Computed (p : Prop) {α : outParam Type} (wanted : outParam α) where
  seen : Option α
  sound : seen = some wanted → p

namespace Computed

variable {α : Type} {wanted : α}

theorem intro (p : Prop) [Computed p wanted] (h : seen p = some wanted) : p := sound h

instance (priority := low) {p : Prop} [Decidable p] : Computed p () where
  seen := if p then some () else none
  sound h := by
    split at h
    · assumption
    · cases h

-- What cannot be compared, such as a library that is left open, can still come out as it should.
instance (priority := 10) {a b : α} : Computed (a = b) b := ⟨some a, Option.some.inj⟩

instance {p q : Prop} [Computed p ()] [Computed q wanted] : Computed (p ∧ q) wanted where
  seen := (seen p).bind fun _ => seen q
  sound h := by
    obtain ⟨_, hp, hq⟩ := Option.bind_eq_some_iff.mp h
    exact ⟨sound hp, sound hq⟩

instance {n : Nat} {p : Nat → Prop} [∀ k, Computed (p k) ()] : Computed (∀ k < n, p k) () where
  seen := if (List.range n).all fun k => (seen (p k)).isSome then some () else none
  sound h k hk := by
    split at h
    · rename_i hall
      obtain ⟨_, hp⟩ := Option.isSome_iff_exists.mp (List.all_eq_true.mp hall k (List.mem_range.mpr hk))
      exact sound hp
    · cases h

instance {ε β : Type} {x : Except ε β} {p : β → Prop} [∀ b, Computed (p b) wanted] :
    Computed (∃ b, x = .ok b ∧ p b) wanted where
  seen := match x with
    | .ok b => seen (p b)
    | .error _ => none
  sound h := by
    cases x with
    | ok b => exact ⟨b, rfl, sound h⟩
    | error e => cases h

instance {x : Exec Unit} {m : Machine} {p : Machine → Prop} [∀ m, Computed (p m) wanted] :
    Computed (∃ m', x m = .ok () m' ∧ p m') wanted where
  seen := match x m with
    | .ok _ m' => seen (p m')
    | .error _ _ => none
  sound h := by
    split at h
    · exact ⟨_, ‹_›, sound h⟩
    · cases h

instance {x : Exec Unit} {m : Machine} {p : Stop → Machine → Prop} [∀ stop m, Computed (p stop m) wanted] :
    Computed (∃ stop m', x m = .error stop m' ∧ p stop m') wanted where
  seen := match x m with
    | .ok _ _ => none
    | .error stop m' => seen (p stop m')
  sound h := by
    split at h
    · cases h
    · exact ⟨_, _, ‹_›, sound h⟩

end Computed

end Mudscript
