import Mudscript.Proofs.Turns

/-!
# Changes of objects

Five instructions reach into the store of objects. One makes an object; the others declare a field or a
method of the object under construction, give it its parent, or set a field that an object has already.
This module says once which object an instruction changes, and how. All other instructions leave the store
as it is.
-/

namespace Mudscript

open Machine Exec

variable {m m' : Machine} {f : Frame} {i : Instruction} {o : ObjectId}

inductive Object.Change
  | field (name : String) (v : Value)
  | method (name : String) (c : Closure)
  | parent (p : ObjectId)
  /-- A field that is there gets another value. -/
  | assigned (name : String) (v : Value)

namespace Object.Change

def apply : Object.Change → Object → Object
  | .field name v, o | .assigned name v, o => o.putField name v
  | .method name c, o => o.putMethod name c
  | .parent p, o => { o with parent := some p }

@[simp] theorem apply_name (change : Object.Change) (object : Object) : (change.apply object).name = object.name := by
  cases change <;> rfl

end Object.Change

/-- The object that an instruction changes, and what it does to it. Members go to the object below the value
on top, and a field is set where the chain of the receiver has it. -/
inductive Machine.Changes (m : Machine) (f : Frame) : Instruction → ObjectId → Object.Change → Prop
  | field {n o} : m.stack.pop.back?.getD .nil = .object o →
      Changes m f (.field n) o (.field (f.code.nameAt n) (m.stack.back?.getD .nil))
  | method {n o c} : m.stack.pop.back?.getD .nil = .object o →
      m.stack.back?.getD .nil = .closure c → Changes m f (.method n) o (.method (f.code.nameAt n) c)
  | parent {o p} : m.stack.pop.back?.getD .nil = .object o →
      m.stack.back?.getD .nil = .object p → m.objects.parent? o = none → Changes m f .inherit o (.parent p)
  | assigned {n o holder} : m.stack.pop.back?.getD .nil = .object o →
      m.objects.holder? o (f.code.nameAt n) = some holder →
      Changes m f (.setProperty n) holder (.assigned (f.code.nameAt n) (m.stack.back?.getD .nil))

theorem Machine.blind_objects : Blind fun m m' => m'.objects = m.objects where
  refl _ := rfl
  trans h h' := h'.trans h
  stack _ _ := rfl
  frames _ _ := rfl
  nextSerial _ _ := rfl
  events _ _ := rfl
  library _ _ _ := rfl

theorem Exec.execute_objects {next : Nat} (hi : i.changesObjects = false) :
    KeepsFrom (fun m m' => m'.objects = m.objects) m (execute f next i) := by
  have hforth : i.bringsForth = false := by
    cases i with
    | object _ | inherit => cases hi
    | _ => rfl
  exact blind_objects.graded.execute (.inl blind_objects.stack) (.inl blind_objects.call)
    (.inl fun _ _ => rfl) (.inr hi)
    (.inr hi) (.inl fun _ _ _ => rfl) (.inr hforth) (.inl fun _ _ => rfl) (.inl fun _ _ => rfl)

namespace Machine.Performs

theorem objects_eq (h : m.Performs f i (.ok () m')) (hi : i.changesObjects = false) : m'.objects = m.objects := by
  obtain ⟨_, heq⟩ := h.keeps (k := 0) blind_objects.graded (fun _ _ => rfl) fun _ => execute_objects hi
  exact heq

theorem object {n : Nat} (h : m.Performs f (.object n) (.ok () m')) :
    m'.objects = m.objects.push { name := f.code.nameAt n } ∧
      m'.stack = m.stack.setIfInBounds f.base (.object m.objects.size) := by
  apply h.gives_alone
  exact fun _ => ⟨rfl, rfl⟩

theorem objects (h : m.Performs f i (.ok () m')) : (m'.objects = m.objects ∧ i.changesObjects = false) ∨
      (∃ n, i = .object n ∧ m'.objects = m.objects.push { name := f.code.nameAt n }) ∨
      ∃ o change, m.Changes f i o change ∧ m'.objects = m.objects.modify o change.apply := by
  by_cases hi : i.changesObjects = false
  · exact .inl ⟨h.objects_eq hi, hi⟩
  right
  have htop : m.stack.pop.back?.getD .nil = m.stack.pop[m.stack.pop.size - 1]?.getD .nil := by
    rw [Array.back?_eq_getElem?]
  cases i with
  | object n => exact .inl ⟨n, rfl, h.object.1⟩
  | setProperty n =>
    right
    apply h.gives_alone
    intro events
    unfold execute
    rw [gives_bind, gives_pop, gives_bind, gives_pop, gives_bind]
    refine gives_setProperty (fun o holder ho hholder => ?_) fun _ _ _ => nofun
    exact ⟨holder, _, .assigned ho hholder, rfl⟩
  | inherit =>
    right
    apply h.gives_alone
    intro events
    unfold execute
    rw [gives_bind, gives_pop]
    refine gives_inherit (fun o p noted hp ho hnone => ?_) fun _ _ _ _ => nofun
    exact ⟨o, _, .parent (htop.trans ho) hp hnone, rfl⟩
  | field n =>
    right
    apply h.gives_alone
    intro events
    unfold execute
    rw [gives_bind, gives_pop]
    refine gives_defineField (fun o ho => ?_) fun _ _ _ => nofun
    exact ⟨o, _, .field (htop.trans ho), rfl⟩
  | method n =>
    right
    apply h.gives_alone
    intro events
    unfold execute
    rw [gives_bind, gives_pop]
    refine gives_defineMethod (fun o c hc ho => ?_) fun _ _ _ => nofun
    exact ⟨o, _, .method (htop.trans ho) hc, rfl⟩
  | _ => exact absurd rfl hi

theorem objects_size_le (h : m.Performs f i (.ok () m')) : m.objects.size ≤ m'.objects.size := by
  rcases h.objects with ⟨heq, _⟩ | ⟨n, _, heq⟩ | ⟨o, change, _, heq⟩
  · rw [heq]
  · rw [heq, Array.size_push]
    omega
  · rw [heq, Array.size_modify]

end Machine.Performs

end Mudscript
