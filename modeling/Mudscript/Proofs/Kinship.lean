import Mudscript.Proofs.Footprint
import Mudscript.Proofs.Vocabulary

/-!
# Kinship of objects

What is said here is about names and parents of objects, not about their members. An object unit says at
its beginning whether its objects have a parent, and of which unit. An object is complete if it has the
parent that its unit asks for. Objects are in line if each parent is complete, younger than its one child,
and of the unit that the child's unit asks for.

Objects that are in line form finite chains. The name of a complete object tells how long its chain is,
so no name comes twice along a chain.
-/

namespace Mudscript

open List

variable {object : Object} {path : String} {α : Type}

abbrev Kinship := Array (String × Option ObjectId)

namespace Kinship

variable (K : Kinship)

def parent? (o : ObjectId) : Option ObjectId := K[o]?.bind Prod.snd

def Named (o : ObjectId) (name : String) : Prop := K[o]?.map Prod.fst = some name

def Childless (o : ObjectId) : Prop := ∀ c, K.parent? c ≠ some o

def Complete (l : Library) (o : ObjectId) : Prop :=
  ∀ name p path, K.Named o name → l.programs[name]? = some p → p.routine.Inherits path →
    ∃ q, K.parent? o = some q

def add (name : String) : Kinship := K.push (name, none)

def link (o q : ObjectId) : Kinship := K.modify o fun e => (e.1, some q)

/-- Objects of units of the library that are in line. -/
structure Lineal (l : Library) (K : Kinship) : Prop where
  enrolled : ∀ o name, K.Named o name → ∃ p, l.programs[name]? = some p
  kin : ∀ o q, K.parent? o = some q → o < q ∧ K.Complete l q ∧ ∃ name p path, K.Named o name ∧
    l.programs[name]? = some p ∧ p.routine.Inherits path ∧ K.Named q (l.key path)
  injective : ∀ o o' q, K.parent? o = some q → K.parent? o' = some q → o = o'

end Kinship

namespace Objects

variable (objects : Objects)

def kinship : Kinship := objects.map fun object => (object.name, object.parent)

inductive Lineage : ObjectId → List ObjectId → Prop
  | last {o object} : objects[o]? = some object → object.parent = none → Lineage o [o]
  | child {o p object ancestors} : objects[o]? = some object →
      object.parent = some p → Lineage p ancestors → Lineage o (o :: ancestors)

/-- What comes of going from an object to its parent, and from there to the next, until one of them has an
answer or has no parent. -/
inductive Walks {α : Type} (answer : ObjectId → Object → Option α) : ObjectId → Option α → Prop
  | found {o object x} : objects[o]? = some object → answer o object = some x → Walks answer o (some x)
  | missed {o object} : objects[o]? = some object → answer o object = none → object.parent = none → Walks answer o none
  | up {o p object x?} : objects[o]? = some object →
      answer o object = none → object.parent = some p → Walks answer p x? → Walks answer o x?

end Objects

theorem Library.Grows.key_eq {l l' : Library} (h : l.Grows l') (path : String) : l'.key path = l.key path := by
  rw [Library.key, Library.key, h.extension_eq]

theorem Code.At.unique {code : Code} {offset : Nat} {i j} (hi : code.At offset i)
    (hj : code.At offset j) : i = j := Option.some.inj (hi.instruction.symm.trans hj.instruction)

theorem Routine.Inherits.unique {r : Routine} {path' : String} (h : r.Inherits path)
    (h' : r.Inherits path') : path = path' := by
  obtain ⟨index, hat, hpath, _⟩ := h
  obtain ⟨index', hat', hpath', _⟩ := h'
  cases hat.unique hat'
  rw [hpath] at hpath'
  cases hpath'
  rfl

/-! ### Parts of a kinship -/

namespace Kinship

variable {K : Kinship} {l l' : Library} {o o' q : ObjectId} {name name' : String}

theorem Named.lt_size (h : K.Named o name) : o < K.size := by
  obtain ⟨e, he, _⟩ := Option.map_eq_some_iff.mp h
  exact (Array.getElem?_eq_some_iff.mp he).1

theorem Named.unique (h : K.Named o name) (h' : K.Named o name') : name = name' :=
  Option.some.inj (h.symm.trans h')

theorem Complete.of_parent? (h : K.parent? o = some q) : K.Complete l o := fun _ _ _ _ _ _ => ⟨q, h⟩

theorem Lineal.lt_size (h : Lineal l K) (hq : K.parent? o = some q) : q < K.size := by
  obtain ⟨_, _, _, _, _, _, _, _, hnamed⟩ := h.kin o q hq
  exact hnamed.lt_size

theorem Lineal.parent (h : Lineal l K) {p : Program} (hname : K.Named o name)
    (hp : l.programs[name]? = some p) (hq : K.parent? o = some q) :
    K.Complete l q ∧ ∃ path, p.routine.Inherits path ∧ K.Named q (l.key path) := by
  obtain ⟨_, hcomplete, name', p', path, hname', hp', hpath, hparent⟩ := h.kin o q hq
  cases hname.unique hname'
  cases hp.symm.trans hp'
  exact ⟨hcomplete, path, hpath, hparent⟩

/-! ### Growing libraries -/

theorem Complete.grows (h : K.Complete l o) (hlineal : Lineal l K) (hgrows : l.Grows l') : K.Complete l' o := by
  intro name p path hname hp hpath
  obtain ⟨p', hp'⟩ := hlineal.enrolled o name hname
  have heq := hgrows.programs name p' hp'
  rw [hp] at heq
  cases heq
  exact h name p path hname hp' hpath

theorem Lineal.grows (h : Lineal l K) (hgrows : l.Grows l') : Lineal l' K where
  enrolled o name hname := by
    obtain ⟨p, hp⟩ := h.enrolled o name hname
    exact ⟨p, hgrows.programs name p hp⟩
  kin o q hq := by
    obtain ⟨hlt, hcomplete, name, p, path, hname, hp, hpath, hparent⟩ := h.kin o q hq
    refine ⟨hlt, hcomplete.grows h hgrows, name, p, path, hname, hgrows.programs name p hp, hpath, ?_⟩
    rw [hgrows.key_eq]
    exact hparent
  injective := h.injective

/-! ### New objects and new parents -/

theorem named_add : (K.add name').Named o name ↔ K.Named o name ∨ o = K.size ∧ name = name' := by
  unfold Named add
  rw [Array.getElem?_push]
  split
  · rename_i heq
    subst heq
    simp [eq_comm]
  · rename_i hne
    simp [hne]

theorem parent?_add : (K.add name).parent? o = K.parent? o := by
  unfold parent? add
  rw [Array.getElem?_push]
  split
  · rename_i heq
    subst heq
    simp
  · rfl

theorem childless_add : (K.add name).Childless o ↔ K.Childless o := by
  simp only [Childless, parent?_add]

theorem Complete.add (h : K.Complete l o) (hlt : o < K.size) (name : String) : (K.add name).Complete l o := by
  intro name' p path hname hp hpath
  rw [parent?_add]
  refine h name' p path ?_ hp hpath
  exact (named_add.mp hname).resolve_right fun heq => Nat.ne_of_lt hlt heq.1

theorem Lineal.add (h : Lineal l K) {p : Program} (hp : l.programs[name]? = some p) : Lineal l (K.add name) where
  enrolled o name' hname := by
    rcases named_add.mp hname with hname | ⟨_, rfl⟩
    · exact h.enrolled o name' hname
    · exact ⟨p, hp⟩
  kin o q hq := by
    rw [parent?_add] at hq
    obtain ⟨hlt, hcomplete, name', p', path, hname, hp', hpath, hparent⟩ := h.kin o q hq
    exact ⟨hlt, hcomplete.add (h.lt_size hq) name, name', p', path, named_add.mpr (.inl hname), hp', hpath,
      named_add.mpr (.inl hparent)⟩
  injective o o' q hq hq' := by
    rw [parent?_add] at hq hq'
    exact h.injective o o' q hq hq'

theorem Lineal.childless (h : Lineal l K) (ho : K.size ≤ o) : K.Childless o :=
  fun _ hc => Nat.not_lt.mpr ho (h.lt_size hc)

theorem named_link : (K.link o' q).Named o name ↔ K.Named o name := by
  unfold Named link
  rw [Array.getElem?_modify]
  split
  · rw [Option.map_map]
    rfl
  · rfl

theorem parent?_link : (K.link o' q).parent? o = if o' = o ∧ o < K.size then some q else K.parent? o := by
  unfold parent? link
  rw [Array.getElem?_modify]
  by_cases heq : o' = o
  · subst heq
    by_cases hlt : o' < K.size
    · simp [hlt]
    · simp [hlt]
  · simp [heq]

theorem parent?_link_self (ho : o < K.size) : (K.link o q).parent? o = some q := by
  rw [parent?_link, if_pos ⟨rfl, ho⟩]

theorem Childless.link (h : K.Childless o) (hne : q ≠ o) (o' : ObjectId) : (K.link o' q).Childless o := by
  intro c hc
  rw [parent?_link] at hc
  split at hc
  · exact hne (Option.some.inj hc)
  · exact h c hc

theorem Complete.link (h : K.Complete l o) (o' q : ObjectId) : (K.link o' q).Complete l o := by
  intro name p path hname hp hpath
  rw [parent?_link]
  split
  · exact ⟨q, rfl⟩
  · exact h name p path (named_link.mp hname) hp hpath

/-- An object that has no parent yet gets one that asks for nothing more, and that nobody else has. -/
theorem Lineal.link (h : Lineal l K) {p : Program} (hname : K.Named o name)
    (hp : l.programs[name]? = some p) (hpath : p.routine.Inherits path) (hlt : o < q)
    (hparent : K.Named q (l.key path)) (hcomplete : K.Complete l q) (hchildless : K.Childless q) :
    Lineal l (K.link o q) where
  enrolled o' name' hname' := h.enrolled o' name' (named_link.mp hname')
  kin o' q' hq' := by
    rw [parent?_link] at hq'
    split at hq'
    · rename_i heq
      cases hq'
      obtain rfl := heq.1
      exact ⟨hlt, hcomplete.link _ _, name, p, path, named_link.mpr hname, hp, hpath, named_link.mpr hparent⟩
    · obtain ⟨hlt', hcomplete', name', p', path', hname', hp', hpath', hparent'⟩ := h.kin o' q' hq'
      exact ⟨hlt', hcomplete'.link _ _, name', p', path', named_link.mpr hname', hp', hpath',
        named_link.mpr hparent'⟩
  injective o1 o2 q' h1 h2 := by
    rw [parent?_link] at h1 h2
    split at h1
    · rename_i heq1
      cases h1
      split at h2
      · rename_i heq2
        exact heq1.1.symm.trans heq2.1
      · exact absurd h2 (hchildless o2)
    · split at h2
      · cases h2
        exact absurd h1 (hchildless o1)
      · exact h.injective o1 o2 q' h1 h2

end Kinship

/-! ### Kinship in a store of objects -/

namespace Objects

variable {objects objects' : Objects} {l : Library} {o o' p : ObjectId} {xs ys : List ObjectId}

theorem getElem?_kinship (o : ObjectId) :
    objects.kinship[o]? = objects[o]?.map fun object => (object.name, object.parent) := Array.getElem?_map

theorem lineal_empty (l : Library) : Kinship.Lineal l (kinship #[]) where
  enrolled o name hname := by simp [Kinship.Named, kinship] at hname
  kin o q hq := by simp [Kinship.parent?, kinship] at hq
  injective o o' q hq := by simp [Kinship.parent?, kinship] at hq

theorem size_kinship : objects.kinship.size = objects.size := Array.size_map

theorem parent?_kinship (o : ObjectId) : objects.kinship.parent? o = objects.parent? o := by
  rw [Kinship.parent?, getElem?_kinship, Objects.parent?]
  cases objects[o]? with
  | none => rfl
  | some object => rfl

theorem parent?_eq (ho : objects[o]? = some object) : objects.kinship.parent? o = object.parent := by
  rw [parent?_kinship, parent?, ho]
  rfl

theorem named_kinship (ho : objects[o]? = some object) : objects.kinship.Named o object.name := by
  rw [Kinship.Named, getElem?_kinship, ho]
  rfl

theorem kinship_push (name : String) : kinship (objects.push { name }) = objects.kinship.add name :=
  Array.map_push

theorem kinship_link (o p : ObjectId) : (objects.link o p).kinship = objects.kinship.link o p := by
  apply Array.ext_getElem?
  intro i
  rw [getElem?_kinship, link, Kinship.link, Array.getElem?_modify, Array.getElem?_modify, getElem?_kinship]
  split
  · rw [Option.map_map, Option.map_map]
    rfl
  · rfl

theorem kinship_modify {g} (hname : ∀ object, (g object).name = object.name)
    (hparent : ∀ object, (g object).parent = object.parent) (o : ObjectId) :
    kinship (objects.modify o g) = objects.kinship := by
  apply Array.ext_getElem?
  intro i
  rw [getElem?_kinship, getElem?_kinship, Array.getElem?_modify]
  split
  · rw [Option.map_map]
    congr 1
    funext object
    exact Prod.ext (hname object) (hparent object)
  · rfl

/-! ### Chains -/

theorem lineage_chainUpTo (hyounger : ∀ o p : Nat, objects.parent? o = some p → o < p ∧ p < objects.size)
    {o n : Nat} (ho : o < objects.size) (hn : objects.size ≤ o + n) : objects.Lineage o (objects.chainUpTo n o) := by
  induction n generalizing o with
  | zero => exact absurd ho (Nat.not_lt.mpr hn)
  | succ n ih =>
    have hget := Array.getElem?_eq_getElem ho
    rw [chainUpTo, hget]
    dsimp only
    cases hparent : objects[o].parent with
    | none => exact .last hget hparent
    | some p =>
      have hp : objects.parent? o = some p := by rw [parent?, hget, Option.bind_some, hparent]
      obtain ⟨hlt, hsize⟩ := hyounger o p hp
      exact .child hget hparent (ih hsize (by omega))

theorem lineage_chain (h : Kinship.Lineal l objects.kinship) (ho : o < objects.size) :
    objects.Lineage o (objects.chain o) := by
  apply lineage_chainUpTo _ ho (Nat.le_add_left _ _)
  intro o p hp
  rw [← parent?_kinship] at hp
  have hsize : objects.kinship.size = objects.size := size_kinship
  exact ⟨(h.kin o p hp).1, hsize ▸ h.lt_size hp⟩

theorem chain_eq_nil (ho : objects.size ≤ o) : objects.chain o = [] := by
  unfold chain
  cases objects.size with
  | zero => rfl
  | succ n =>
    rw [chainUpTo, Array.getElem?_eq_none ho]

/-- The chains of complete objects of one name are equally long: the name tells whether there is a parent,
and its name. -/
theorem Lineage.length_eq (h : Kinship.Lineal l objects.kinship) {name : String}
    (hxs : objects.Lineage o xs) (ho : objects.kinship.Complete l o) (hname : objects.kinship.Named o name)
    (hys : objects.Lineage o' ys) (ho' : objects.kinship.Complete l o')
    (hname' : objects.kinship.Named o' name) : xs.length = ys.length := by
  induction hxs generalizing o' ys name with
  | last hobject hnone =>
    obtain ⟨unit, hunit⟩ := h.enrolled _ name hname
    cases hys with
    | last => rfl
    | child hobject' hparent' _ =>
      obtain ⟨_, path, hpath, _⟩ := h.parent hname' hunit ((parent?_eq hobject').trans hparent')
      obtain ⟨q, hq⟩ := ho name unit path hname hunit hpath
      cases ((parent?_eq hobject).trans hnone).symm.trans hq
  | child hobject hparent _ ih =>
    obtain ⟨unit, hunit⟩ := h.enrolled _ name hname
    obtain ⟨hcomplete, path, hpath, hnamed⟩ := h.parent hname hunit ((parent?_eq hobject).trans hparent)
    cases hys with
    | last hobject' hnone' =>
      obtain ⟨q, hq⟩ := ho' name unit path hname' hunit hpath
      cases ((parent?_eq hobject').trans hnone').symm.trans hq
    | child hobject' hparent' hys =>
      obtain ⟨hcomplete', path', hpath', hnamed'⟩ :=
        h.parent hname' hunit ((parent?_eq hobject').trans hparent')
      cases hpath.unique hpath'
      rw [length_cons, length_cons, ih hcomplete hnamed hys hcomplete' hnamed']

theorem Lineage.of_mem (h : Kinship.Lineal l objects.kinship) (hxs : objects.Lineage o xs)
    (ho : objects.kinship.Complete l o) (hmem : o' ∈ xs) :
    ∃ ys, objects.Lineage o' ys ∧ ys.length ≤ xs.length ∧ objects.kinship.Complete l o' := by
  induction hxs with
  | last hobject hnone =>
    obtain rfl := mem_singleton.mp hmem
    exact ⟨_, .last hobject hnone, Nat.le_refl _, ho⟩
  | child hobject hparent hxs ih =>
    rcases mem_cons.mp hmem with rfl | hmem
    · exact ⟨_, .child hobject hparent hxs, Nat.le_refl _, ho⟩
    · obtain ⟨_, hcomplete, _⟩ := h.kin _ _ ((parent?_eq hobject).trans hparent)
      obtain ⟨ys, hys, hle, ho'⟩ := ih hcomplete hmem
      exact ⟨ys, hys, Nat.le_succ_of_le hle, ho'⟩

theorem nameOf_eq {name : String} (h : objects.kinship.Named o name) : objects.nameOf o = name := by
  rw [Kinship.Named, getElem?_kinship] at h
  rw [nameOf]
  cases hobject : objects[o]? with
  | none =>
    rw [hobject] at h
    cases h
  | some object =>
    rw [hobject] at h
    exact Option.some.inj h

theorem Lineage.nodup (h : Kinship.Lineal l objects.kinship) (hxs : objects.Lineage o xs) :
    (xs.map objects.nameOf).Nodup := by
  induction hxs with
  | last => simp
  | @child o p object xs hobject hparent hxs ih =>
    refine nodup_cons.mpr ⟨fun hmem => ?_, ih⟩
    obtain ⟨o', hmem, hsame⟩ := mem_map.mp hmem
    have hp := (parent?_eq hobject).trans hparent
    obtain ⟨_, hcomplete, _⟩ := h.kin o p hp
    obtain ⟨ys, hys, hle, ho'⟩ := hxs.of_mem h hcomplete hmem
    obtain ⟨name, hname⟩ : ∃ name, objects.kinship.Named o' name := by
      cases hys with
      | last hobject' => exact ⟨_, named_kinship hobject'⟩
      | child hobject' => exact ⟨_, named_kinship hobject'⟩
    have hname' := named_kinship hobject
    rw [← nameOf_eq hname', ← hsame, nameOf_eq hname] at hname'
    -- A chain from here would be longer than itself.
    have heq := (Lineage.child hobject hparent hxs).length_eq h (.of_parent? hp) hname' hys ho' hname
    rw [length_cons] at heq
    omega

/-! ### Private chains -/

theorem Lineage.head_mem (hxs : objects.Lineage o xs) : o ∈ xs := by
  cases hxs with
  | last => exact mem_singleton_self o
  | child => exact mem_cons_self

theorem Lineage.exists_child (hxs : objects.Lineage o xs) (hmem : p ∈ xs) :
    p = o ∨ ∃ c ∈ xs, objects.kinship.parent? c = some p := by
  induction hxs with
  | last => exact .inl (mem_singleton.mp hmem)
  | @child o p' object xs hobject hparent hxs ih =>
    rcases mem_cons.mp hmem with rfl | hmem
    · exact .inl rfl
    · right
      rcases ih hmem with rfl | ⟨c, hc, hp⟩
      · exact ⟨o, mem_cons_self, (parent?_eq hobject).trans hparent⟩
      · exact ⟨c, mem_cons_of_mem _ hc, hp⟩

theorem Lineage.meet (h : Kinship.Lineal l objects.kinship) {x : ObjectId} (hxs : objects.Lineage o xs)
    (hx : x ∈ xs) (hys : objects.Lineage o' ys) (hx' : x ∈ ys) : o ∈ ys ∨ o' ∈ xs := by
  induction hxs with
  | last =>
    rw [mem_singleton.mp hx] at hx'
    exact .inl hx'
  | @child o p object xs hobject hparent hxs ih =>
    rcases mem_cons.mp hx with rfl | hx
    · exact .inl hx'
    rcases ih hx with hp | ho'
    · rcases hys.exists_child hp with rfl | ⟨c, hc, hcp⟩
      · exact .inr (mem_cons_of_mem _ hxs.head_mem)
      · cases h.injective c o p hcp ((parent?_eq hobject).trans hparent)
        exact .inl hc
    · exact .inr (mem_cons_of_mem _ ho')

/-- Two objects that are nobody's parents have nothing in common. -/
theorem Lineage.disjoint (h : Kinship.Lineal l objects.kinship) (hxs : objects.Lineage o xs)
    (hys : objects.Lineage o' ys) (hne : o ≠ o') (ho : objects.kinship.Childless o)
    (ho' : objects.kinship.Childless o') : ∀ x ∈ xs, x ∉ ys := by
  intro x hx hx'
  rcases hxs.meet h hx hys hx' with hmem | hmem
  · rcases hys.exists_child hmem with heq | ⟨c, _, hc⟩
    · exact hne heq
    · exact ho c hc
  · rcases hxs.exists_child hmem with heq | ⟨c, _, hc⟩
    · exact hne heq.symm
    · exact ho' c hc

/-! ### Looking along chains -/

theorem Lineage.walks (hxs : objects.Lineage o xs) (answer : ObjectId → Object → Option α) :
    objects.Walks answer o (xs.findSome? fun i => objects[i]?.bind (answer i)) := by
  induction hxs with
  | @last o object hobject hnone =>
    rw [List.findSome?_cons, hobject, Option.bind_some]
    cases hanswer : answer o object with
    | none => exact .missed hobject hanswer hnone
    | some x => exact .found hobject hanswer
  | @child o p object xs hobject hparent hxs ih =>
    rw [List.findSome?_cons, hobject, Option.bind_some]
    cases hanswer : answer o object with
    | none => exact .up hobject hanswer hparent ih
    | some x => exact .found hobject hanswer

theorem Lineage.unique (hxs : objects.Lineage o xs) (hys : objects.Lineage o ys) : xs = ys := by
  induction hxs generalizing ys with
  | last hobject hnone =>
    cases hys with
    | last => rfl
    | child hobject' hparent =>
      cases hobject.symm.trans hobject'
      cases hnone.symm.trans hparent
  | child hobject hparent _ ih =>
    cases hys with
    | last hobject' hnone =>
      cases hobject.symm.trans hobject'
      cases hparent.symm.trans hnone
    | child hobject' hparent' hys =>
      cases hobject.symm.trans hobject'
      cases hparent.symm.trans hparent'
      rw [ih hys]

theorem chain_eq (h : Kinship.Lineal l objects.kinship) (ho : objects[o]? = some object) :
    objects.chain o = o :: object.parent.elim [] objects.chain := by
  have hxs := lineage_chain h (Array.getElem?_eq_some_iff.mp ho).1
  cases hparent : object.parent with
  | none => exact hxs.unique (.last ho hparent)
  | some p =>
    have hp : objects.kinship.parent? o = some p := by rw [parent?_eq ho, hparent]
    have hsize : objects.kinship.size = objects.size := size_kinship
    exact hxs.unique (.child ho hparent (lineage_chain h (hsize ▸ h.lt_size hp)))

theorem search_eq (h : Kinship.Lineal l objects.kinship) (ho : objects[o]? = some object) (f : Object → Option α) :
    objects.search o f = (f object).or (object.parent.bind fun p => objects.search p f) := by
  rw [search, chain_eq h ho, List.findSome?_cons, ho, Option.bind_some]
  cases f object with
  | some x => rfl
  | none => cases object.parent <;> rfl

theorem ancestor?_eq (o : ObjectId) (p : Object → Bool) : objects.ancestor? o p
      = (objects.chain o).findSome? fun i => objects[i]?.bind fun object => if p object then some i else none := by
  unfold ancestor?
  induction objects.chain o with
  | nil => rfl
  | cons i xs ih =>
    rw [List.find?_cons, List.findSome?_cons]
    cases hobject : objects[i]? with
    | none => exact ih
    | some object =>
      cases hp : p object with
      | true => simp [hp]
      | false =>
        simp only [Option.any_some, hp, Option.bind_some, Bool.false_eq_true, if_false]
        exact ih

/-! ### Writing a member -/

theorem chainUpTo_congr (hkinship : objects'.kinship = objects.kinship) (n : Nat) (o : ObjectId) :
    objects'.chainUpTo n o = objects.chainUpTo n o := by
  induction n generalizing o with
  | zero => rfl
  | succ n ih =>
    have hget : objects'.kinship[o]? = _ := getElem?_kinship o
    rw [hkinship, getElem?_kinship] at hget
    rw [chainUpTo, chainUpTo]
    cases hobject : objects[o]? with
    | none =>
      rw [hobject] at hget
      rw [Option.map_eq_none_iff.mp hget.symm]
    | some object =>
      rw [hobject] at hget
      obtain ⟨object', hobject', heq⟩ := Option.map_eq_some_iff.mp hget.symm
      rw [hobject']
      have hparent : object'.parent = object.parent := congrArg Prod.snd heq
      dsimp only
      rw [hparent]
      cases object.parent with
      | none => rfl
      | some p => exact congrArg (o :: ·) (ih p)

theorem chain_congr (hkinship : objects'.kinship = objects.kinship) (o : ObjectId) :
    objects'.chain o = objects.chain o := by
  have hsize : objects'.size = objects.size := by rw [← size_kinship, hkinship, size_kinship]
  rw [chain, chain, hsize, chainUpTo_congr hkinship]

/-- What is not along the chain of an object does not matter to a search that starts from it. -/
theorem search_modify {g} (hname : ∀ object, (g object).name = object.name)
    (hparent : ∀ object, (g object).parent = object.parent) (ho' : o' ∉ objects.chain o)
    (f : Object → Option α) : search (objects.modify o' g) o f = objects.search o f := by
  unfold search
  rw [chain_congr (kinship_modify hname hparent o')]
  generalize objects.chain o = xs at ho'
  induction xs with
  | nil => rfl
  | cons i xs ih =>
    obtain ⟨hne, hxs⟩ := ne_and_not_mem_of_not_mem_cons ho'
    rw [List.findSome?_cons, List.findSome?_cons, Array.getElem?_modify, if_neg hne, ih hxs]

end Objects

end Mudscript
