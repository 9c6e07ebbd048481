import Mudscript.Proofs.Histories

/-!
# Reading what was written

A property is written where a field of its name is declared, and read where the name is declared at all.
Both go along the chain of parents, but only a read stops at a method. So a read finds what was written,
unless a method of the same name is nearer than the field: then it finds the method, as it did before.
-/

namespace Mudscript

namespace Objects

variable {objects objects' : Objects} {o holder : ObjectId} {name : String} {v : Value}

def declares (objects : Objects) (name : String) (i : ObjectId) : Bool :=
  objects[i]?.any fun object => (object.fields.get? name).isSome

/-- The objects along a chain in front of the first one that declares a field. -/
def beforeField (objects : Objects) (o : ObjectId) (name : String) : List ObjectId :=
  (objects.chain o).takeWhile fun i => !objects.declares name i

def methodAmong? (objects : Objects) (ids : List ObjectId) (name : String) : Option Closure :=
  ids.findSome? fun i => objects[i]?.bind (·.methods.get? name)

/-- Among objects without a field of the name, a read can only find a method. -/
theorem findSome?_own? {ids : List ObjectId} (hfields : ∀ i ∈ ids, objects.declares name i = false) :
    (ids.findSome? fun i => objects[i]?.bind (·.own? name)) = (objects.methodAmong? ids name).map .closure := by
  unfold methodAmong?
  induction ids with
  | nil => rfl
  | cons i ids ih =>
    have hrest := ih fun j hj => hfields j (List.mem_cons_of_mem _ hj)
    have hfield := hfields i List.mem_cons_self
    rw [List.findSome?_cons, List.findSome?_cons]
    cases hobject : objects[i]? with
    | none => exact hrest
    | some object =>
      rw [declares, hobject] at hfield
      have hnone : object.fields.get? name = none := by simpa using hfield
      rw [Option.bind_some, Option.bind_some, Object.own?, hnone]
      dsimp only
      cases object.methods.get? name with
      | none => exact hrest
      | some method => rfl

theorem methodAmong?_putField (ids : List ObjectId) :
    methodAmong? (objects.modify holder (·.putField name v)) ids name = objects.methodAmong? ids name := by
  unfold methodAmong?
  congr 1
  funext i
  rw [Array.getElem?_modify]
  split
  · cases objects[i]? <;> rfl
  · rfl

theorem chain_of_holder? (h : objects.holder? o name = some holder) :
    (∃ after, objects.chain o = objects.beforeField o name ++ holder :: after) ∧ objects.declares name holder ∧
      ∀ i ∈ objects.beforeField o name, objects.declares name i = false := by
  obtain ⟨hfield, before, after, hchain, hbefore⟩ := List.find?_eq_some_iff_append.mp h
  change objects.declares name holder = true at hfield
  change ∀ i ∈ before, (!objects.declares name i) = true at hbefore
  have heq : objects.beforeField o name = before := by
    rw [beforeField, hchain, List.takeWhile_append_of_pos hbefore, List.takeWhile_cons_of_neg, List.append_nil]
    simp [hfield]
  rw [heq]
  exact ⟨⟨after, hchain⟩, hfield, fun i hi => by simpa using hbefore i hi⟩

/-- A method in front of the field is what a read finds before the field is set. -/
theorem property?_eq_method (hholder : objects.holder? o name = some holder) {method : Closure}
    (hmethod : objects.methodAmong? (objects.beforeField o name) name = some method) :
    objects.property? o name = some (.closure method) := by
  obtain ⟨⟨after, hchain⟩, -, hbefore⟩ := chain_of_holder? hholder
  rw [property?, search, hchain, List.findSome?_append, findSome?_own? hbefore, hmethod]
  rfl

theorem property?_putField_holder (hholder : objects.holder? o name = some holder) (v : Value) :
    property? (objects.modify holder (·.putField name v)) o name
      = some ((objects.methodAmong? (objects.beforeField o name) name).elim v .closure) := by
  obtain ⟨⟨after, hchain⟩, hfield, hbefore⟩ := chain_of_holder? hholder
  generalize objects.beforeField o name = before at hchain hbefore ⊢
  -- In front of the holder nothing has changed.
  have hsame : ∀ i ∈ before, declares (objects.modify holder (·.putField name v)) name i = false := by
    intro i hi
    rw [declares, Array.getElem?_modify, if_neg]
    · exact hbefore i hi
    · rintro rfl
      rw [hbefore _ hi] at hfield
      cases hfield
  obtain ⟨object, hobject, _⟩ := (Option.any_eq_true ..).mp hfield
  have hread : (object.putField name v).own? name = some v := by
    simp [Object.own?, Object.putField]
  rw [property?, search, chain_congr (kinship_modify (g := (·.putField name v)) (fun _ => rfl) (fun _ => rfl) holder),
    hchain, List.findSome?_append, List.findSome?_cons, Array.getElem?_modify, if_pos rfl, hobject,
    findSome?_own? hsame, methodAmong?_putField]
  cases objects.methodAmong? before name with
  | some method => rfl
  | none => simp [hread]

end Objects

open Exec

/-- A field is set through an object. The next read gives the value, unless an object in front of the one that
declares the field has a method of its name: then it gives the first of these methods, as it did before the write. -/
theorem Objects.property?_assign? {objects objects' : Objects} {o : ObjectId} {name : String} {v : Value}
    (h : objects.assign? o name v = some objects') :
    let found := (objects.methodAmong? (objects.beforeField o name) name).elim v .closure
    objects'.property? o name = some found ∧
      (∀ method, objects.methodAmong? (objects.beforeField o name) name = some method →
        objects.property? o name = some (.closure method) ∧ objects'.property? o name = objects.property? o name) ∧
      ∀ m : Machine, m.objects = objects →
        (do setProperty (.object o) name v; getProperty (.object o) name : Exec Value) m
          = .ok found { m with objects := objects' } := by
  obtain ⟨holder, hholder, rfl⟩ := Option.map_eq_some_iff.mp h
  have hread := property?_putField_holder hholder v
  refine ⟨hread, fun method hmethod => ?_, ?_⟩
  · have hbefore := property?_eq_method hholder hmethod
    rw [hmethod] at hread
    exact ⟨hbefore, hread.trans hbefore.symm⟩
  rintro m rfl
  have hset : setProperty (.object o) name v m
      = .ok () { m with objects := m.objects.modify holder (·.putField name v) } := by
    rw [setProperty, show expectObject (.object o) name = pure o from rfl, pure_bind, get_bind, hholder]
    rfl
  rw [bind_of_ok hset, getProperty, show expectObject (.object o) name = pure o from rfl, pure_bind, get_bind]
  dsimp only
  rw [hread]
  rfl

/-- A field that a parent declares is set through its child, which has a method of another name. -/
theorem Objects.property?_assign?_inherited : let method : Closure := ⟨0, ⟨.method, "f", 0, 0, none, .empty⟩, #[]⟩
    let objects : Objects :=
      #[{ name := "/a", methods := [("f", method)], parent := some 1 }, { name := "/b", fields := [("x", .nil)] }]
    ∃ objects', objects.assign? 0 "x" (.bool true) = some objects' ∧ objects'.property? 0 "x" = some (.bool true) := by
  intro method objects
  have hassign : ∃ objects', objects.assign? 0 "x" (.bool true) = some objects' := ⟨_, rfl⟩
  obtain ⟨objects', hassign⟩ := hassign
  exact ⟨objects', hassign, (property?_assign? hassign).1⟩

/-- A child with a method and its parent with a field, both of one name. Setting the field through the child
succeeds, and the child still has its method under the name. -/
theorem Objects.property?_assign?_hidden : let method : Closure := ⟨0, ⟨.method, "x", 0, 0, none, .empty⟩, #[]⟩
    let objects : Objects :=
      #[{ name := "/a", methods := [("x", method)], parent := some 1 }, { name := "/b", fields := [("x", .nil)] }]
    ∃ objects', objects.assign? 0 "x" (.bool true) = some objects' ∧
      objects'.property? 0 "x" = some (.closure method) ∧ objects'.property? 0 "x" ≠ some (.bool true) := by
  refine ⟨_, rfl, rfl, ?_⟩
  intro h
  cases h

end Mudscript
