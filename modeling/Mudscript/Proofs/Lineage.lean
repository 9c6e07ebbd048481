import Mudscript.Proofs.Kinship
import Mudscript.Proofs.Realm
import Mudscript.Proofs.Safety

/-!
# The lineage of objects

An object unit that inherits does so right after it has made its object: it loads the unit of its parent,
runs it, and makes what it gets the parent. So a parent is younger than its child, the child is the only
one that knows of it at that moment, and no object has a parent for long that is not complete.

The invariant follows the calls. An object unit under way has its object in slot 0. The object has no
children yet, and is younger than the objects of the calls below. It is complete, or its call is on the way
to the parent, or waits for the call that makes the parent.
-/

namespace Mudscript

open Machine Exec

variable {q : ObjectId} {r : Request} {v : Value}

variable {stack : Array Value} {W' : Frame → ObjectId → Prop} {target : Nat} {p : Program}

/-! ### Units and their routines -/

/-- A library that keeps each program under the path of its object. -/
def Library.Keyed (l : Library) : Prop :=
  ∀ (key : String) (p : Program), l.programs[key]? = some p →
    ∃ source, compileObject key source = .ok p.routine

theorem Library.Keyed.enrolls {l l' : Library} (h : l.Keyed) (henrolls : l.Enrolls l') : l'.Keyed :=
  fun key p hp => (henrolls.added key p hp).elim (h key p) fun hnew => hnew

def Library.HasUnit (l : Library) (path : String) (r : Routine) : Prop :=
  ∃ p, l.programs[path]? = some p ∧ p.routine = r ∧ ∃ source, compileObject path source = .ok r

/-- All values there are, with what is known of functions. An object unit among the routines is one of the
library. -/
def Realm.holding (known : Closure → Prop) : Realm where
  object := 0
  cell := 0
  globals := True
  native _ := True
  routine l r := (∃ unit : Routine, unit.IsCompiled ∧ unit.Within r) ∧
    ((∀ q, r.Within q → q.kind ≠ .object) ∨ ∃ path, l.HasUnit path r)
  closure := known

abbrev Realm.whole : Realm := holding fun _ => True

theorem Realm.lawful_holding {known : Closure → Prop} (hbare : ∀ serial r, known ⟨serial, r, #[]⟩) :
    (holding known).Lawful where
  grows := by
    rintro l l' r hgrows ⟨hcompiled, hr⟩
    refine ⟨hcompiled, hr.imp_right ?_⟩
    rintro ⟨path, p, hp, hroutine⟩
    exact ⟨path, p, hgrows.programs path p hp, hroutine⟩
  enrolled := by
    intro l key source p hcompiled hp
    exact ⟨⟨p.routine, .inr ⟨key, source, hcompiled⟩, .self⟩, .inr ⟨key, p, hp, rfl, source, hcompiled⟩⟩
  nested := by
    rintro l r q index ⟨⟨unit, hunit, hwithin⟩, hr⟩ hq
    refine ⟨⟨unit, hunit, hwithin.trans (.inside hq .self)⟩, .inl ?_⟩
    rcases hr with hr | ⟨path, p, _, _, source, hcompiled⟩
    · exact fun q' hq' => hr q' (.inside hq hq')
    · exact (makes_of_compileObject hcompiled).nested index q hq
  layout := by
    rintro l r ⟨⟨unit, hunit, hwithin⟩, _⟩
    exact hunit.verified r hwithin
  silent := fun _ _ _ => trivial
  bare := hbare

theorem Realm.lawful_whole : whole.Lawful := lawful_holding fun _ _ => trivial

variable {past : Moment} {L : Layouts} {a : Activity} {m m' : Machine} {f g : Frame}
  {rest calls : List Frame} {i : Instruction} {l l' : Library} {K K' : Kinship} {o : ObjectId}

theorem Machine.Inside.hasUnit (h : m.Inside .whole) (hf : f ∈ m.frames) (hobject : f.IsObject) :
    ∃ path, m.library.HasUnit path f.closure.routine := by
  have hroutine := (h.frames f hf).1.routine
  exact hroutine.2.resolve_left fun hkind => hkind _ .self hobject

/-! ### Objects under construction -/

def Frame.Builds (stack : Array Value) (f : Frame) (o : ObjectId) : Prop :=
  f.IsObject ∧ f.position ≠ 0 ∧ stack[f.base]? = some (.object o)

namespace Kinship

/-- The object of a call is one of its unit, and nobody has it for a parent. -/
structure Raises (l : Library) (K : Kinship) (f : Frame) (o : ObjectId) : Prop where
  unit : ∃ name p, K.Named o name ∧ l.programs[name]? = some p ∧ p.routine = f.closure.routine
  childless : K.Childless o

/-- The object of a call is complete, or the call has the next one make the parent. -/
def Awaits (l : Library) (K : Kinship) (next f : Frame) (o : ObjectId) : Prop :=
  K.Complete l o ∨ ∃ path p, f.closure.routine.Inherits path ∧ f.position = 7 ∧
    l.programs[l.key path]? = some p ∧ p.routine = next.closure.routine

/-- Calls that have made objects, innermost first. Of the innermost one it says what is asked. -/
def Rearing (l : Library) (K : Kinship) (stack : Array Value) :
    (Frame → ObjectId → Prop) → List Frame → Prop
  | _, [] => True
  | W, f :: rest =>
    (∀ o, f.Builds stack o →
      K.Raises l f o ∧ W f o ∧ ∀ g ∈ rest, ∀ o', g.Builds stack o' → o' < o) ∧
    Rearing l K stack (K.Awaits l f) rest

/-- What is on top of the stack on the way to the parent: the object itself, the path of the parent, the
program, and the parent. -/
inductive Expects (l : Library) (K : Kinship) (top : Option Value) (o : ObjectId) (path : String) :
    Nat → Prop
  | own : top = some (.object o) → Expects l K top o path 3
  | named : top = some (.text path) → Expects l K top o path 6
  | loaded {p : Program} : top = some (.program p) → l.programs[l.key path]? = some p → Expects l K top o path 7
  | made {q : ObjectId} : top = some (.object q) → o < q → K.Named q (l.key path) → K.Complete l q →
      K.Childless q → Expects l K top o path 7

/-- The object of a call is complete, or the call is on the way to its parent. -/
def Works (l : Library) (K : Kinship) (top : Option Value) (f : Frame) (o : ObjectId) : Prop :=
  K.Complete l o ∨ ∃ path, f.closure.routine.Inherits path ∧ K.Expects l top o path f.position

/-- The object of a call is complete, or the call needs the program with a key for the parent. -/
def Needs (l : Library) (K : Kinship) (key : String) (f : Frame) (o : ObjectId) : Prop :=
  K.Complete l o ∨ ∃ path, f.closure.routine.Inherits path ∧ f.position = 7 ∧ key = l.key path

theorem Raises.grows (h : K.Raises l f o) (hgrows : l.Grows l') : K.Raises l' f o := by
  obtain ⟨name, p, hname, hp, hroutine⟩ := h.unit
  exact ⟨⟨name, p, hname, hgrows.programs name p hp, hroutine⟩, h.childless⟩

theorem Raises.lt_size (h : K.Raises l f o) : o < K.size := by
  obtain ⟨_, _, hname, _⟩ := h.unit
  exact hname.lt_size

theorem Awaits.grows (h : K.Awaits l g f o) (hgrows : l.Grows l')
    (hcomplete : K.Complete l o → K'.Complete l' o) : K'.Awaits l' g f o := by
  rcases h with ho | ⟨path, p, hpath, hposition, hp, hroutine⟩
  · exact .inl (hcomplete ho)
  · refine .inr ⟨path, p, hpath, hposition, ?_, hroutine⟩
    rw [hgrows.key_eq]
    exact hgrows.programs _ p hp

theorem Rearing.congr {stack'} {W : Frame → ObjectId → Prop} (h : Rearing l K stack W calls) (hgrows : l.Grows l')
    (hslots : ∀ f ∈ calls, f.IsObject → f.position ≠ 0 → stack'[f.base]? = stack[f.base]?)
    (hraises : ∀ f ∈ calls, ∀ o, f.Builds stack o → K.Raises l f o →
      K'.Raises l' f o ∧ (K.Complete l o → K'.Complete l' o))
    (hW : ∀ f rest, calls = f :: rest → ∀ o, f.Builds stack o → K.Raises l f o → W f o → W' f o) :
    Rearing l' K' stack' W' calls := by
  have hbuilds : ∀ f ∈ calls, ∀ o, f.Builds stack' o → f.Builds stack o :=
    fun f hf o ⟨hobject, hposition, hslot⟩ =>
      ⟨hobject, hposition, (hslots f hf hobject hposition).symm.trans hslot⟩
  induction calls generalizing W W' with
  | nil => trivial
  | cons f rest ih =>
    obtain ⟨hf, hrest⟩ := h
    refine ⟨fun o ho => ?_, ?_⟩
    · have ho' := hbuilds f List.mem_cons_self o ho
      obtain ⟨hraises', hwork, horder⟩ := hf o ho'
      refine ⟨(hraises f List.mem_cons_self o ho' hraises').1, hW f rest rfl o ho' hraises' hwork, ?_⟩
      exact fun g hg o' ho' => horder g hg o' (hbuilds g (List.mem_cons_of_mem _ hg) o' ho')
    · refine ih hrest (fun g hg => hslots g (List.mem_cons_of_mem _ hg))
        (fun g hg => hraises g (List.mem_cons_of_mem _ hg)) ?_ fun g hg => hbuilds g (List.mem_cons_of_mem _ hg)
      rintro g rest' rfl o ho hg hawaits
      exact hawaits.grows hgrows (hraises g (by simp) o ho hg).2

theorem Rearing.rears {W : Frame → ObjectId → Prop} (h : Rearing l K stack W calls)
    (hf : f ∈ calls) (ho : f.Builds stack o) : K.Raises l f o := by
  induction calls generalizing W with
  | nil => cases hf
  | cons g rest ih =>
    rcases List.mem_cons.mp hf with rfl | hf
    · exact (h.1 o ho).1
    · exact ih h.2 hf

theorem Rearing.mono {W : Frame → ObjectId → Prop} (h : Rearing l K stack W calls)
    (hW : ∀ f rest, calls = f :: rest → ∀ o, f.Builds stack o → W f o → W' f o) : Rearing l K stack W' calls :=
  h.congr (.refl l) (fun _ _ _ _ => rfl) (fun _ _ _ _ hraises => ⟨hraises, id⟩)
    fun f rest heq o ho _ => hW f rest heq o ho

theorem Rearing.enter {entered}
    (h : Rearing l K stack (fun _ => K.Complete l) calls) (hentered : ∀ g ∈ entered, g.position = 0) :
    Rearing l K stack (fun _ => K.Complete l) (entered ++ calls) := by
  induction entered with
  | nil => exact h
  | cons g entered ih =>
    refine ⟨fun o ho => absurd (hentered g List.mem_cons_self) ho.2.1, ?_⟩
    exact (ih fun g' hg' => hentered g' (List.mem_cons_of_mem _ hg')).mono fun _ _ _ _ _ hcomplete => .inl hcomplete

end Kinship

/-! ### Machines that make objects -/

namespace Machine

/-- The objects of the machine are in line, and its calls look after those they have made. -/
structure Rears (m : Machine) (W : Frame → ObjectId → Prop) : Prop where
  lineal : Kinship.Lineal m.library m.objects.kinship
  calls : m.objects.kinship.Rearing m.library m.stack W m.calls

def complete (m : Machine) : Frame → ObjectId → Prop := fun _ => m.objects.kinship.Complete m.library

def works (m : Machine) : Frame → ObjectId → Prop := m.objects.kinship.Works m.library m.stack.back?

def needs (m : Machine) : Request → Frame → ObjectId → Prop
  | .source key _ _ => m.objects.kinship.Needs m.library key
  | .time => m.complete

theorem Rears.works (h : m.Rears m.complete) : m.Rears m.works :=
  ⟨h.lineal, h.calls.mono fun _ _ _ _ _ hcomplete => .inl hcomplete⟩

theorem Rears.needs (h : m.Rears m.complete) (r : Request) : m.Rears (m.needs r) := by
  cases r with
  | source key file caller => exact ⟨h.lineal, h.calls.mono fun _ _ _ _ _ hcomplete => .inl hcomplete⟩
  | time => exact h

/-- Names and parents of objects are the same, and what calls there are more are about to start. -/
structure Enters (m m' : Machine) : Prop where
  kinship_eq : m'.objects.kinship = m.objects.kinship
  library : m.library.Enrolls m'.library
  calls : m.Deepens m'

theorem shortsighted_enters : Shortsighted Enters where
  refl _ := ⟨rfl, .refl _, .of_eq rfl⟩
  trans h h' := ⟨h'.kinship_eq.trans h.kinship_eq, h.library.trans h'.library,
    shortsighted_deepens.trans h.calls h'.calls⟩
  stack _ _ := ⟨rfl, .refl _, .of_eq rfl⟩
  call m f hf hroom := ⟨rfl, .refl _, shortsighted_deepens.call m f hf hroom⟩
  nextSerial _ _ := ⟨rfl, .refl _, .of_eq rfl⟩
  events _ _ := ⟨rfl, .refl _, .of_eq rfl⟩
  library _ _ h := ⟨rfl, h, .of_eq rfl⟩

/-- The objects under construction are where they were. -/
def SparesObjects (m m' : Machine) : Prop :=
  ∀ g ∈ m.calls, g.IsObject → m'.stack[g.base]? = m.stack[g.base]?

theorem Rears.moves {W : Frame → ObjectId → Prop} (h : m.Rears W) (hcalls : m.calls = f :: rest)
    (hposition : f.IsObject → f.position ≠ 0) (hkinship : m'.objects.kinship = m.objects.kinship)
    (hgrows : m.library.Grows m'.library)
    (hcalls' : m'.calls = { f with position := target } :: rest) (hslots : m.SparesObjects m')
    (hW : ∀ o, f.Builds m.stack o → W f o → W' { f with position := target } o) : m'.Rears W' := by
  have hlineal := h.lineal
  obtain ⟨hf, hrest⟩ := hcalls ▸ h.calls
  unfold SparesObjects at hslots
  rw [hcalls] at hslots
  have hbuilds : ∀ g ∈ rest, ∀ o, g.Builds m'.stack o → g.Builds m.stack o := fun g hg o hg' =>
    ⟨hg'.1, hg'.2.1, (hslots g (List.mem_cons_of_mem _ hg) hg'.1).symm.trans hg'.2.2⟩
  refine ⟨hkinship ▸ hlineal.grows hgrows, ?_⟩
  rw [hcalls', hkinship]
  refine ⟨fun o ho => ?_, ?_⟩
  · have ho' : f.Builds m.stack o :=
      ⟨ho.1, hposition ho.1, (hslots f List.mem_cons_self ho.1).symm.trans ho.2.2⟩
    obtain ⟨hmine, hwork, horder⟩ := hf o ho'
    refine ⟨⟨(hmine.grows hgrows).unit, hmine.childless⟩, hW o ho' hwork, ?_⟩
    exact fun g hg o' hg' => horder g hg o' (hbuilds g hg o' hg')
  · refine hrest.congr hgrows (fun g hg hobject _ => hslots g (List.mem_cons_of_mem _ hg) hobject)
      (fun g _ o _ hg => ⟨hg.grows hgrows, fun ho => ho.grows hlineal hgrows⟩) ?_
    exact fun g _ _ o _ _ hawaits => hawaits.grows hgrows fun ho => ho.grows hlineal hgrows

theorem Rears.goes {W : Frame → ObjectId → Prop} (h : m.Rears W) (hcalls : m.calls = f :: rest)
    (hcomplete : ∀ o, f.Builds m.stack o → m.complete f o) (hposition : f.IsObject → f.position ≠ 0)
    (henters : (m.goTo target).Enters m') (hslots : m.SparesObjects m') : m'.Rears m'.complete := by
  obtain ⟨hkinship, hlibrary, entered, hcalls', hentered⟩ := henters
  have hgrows : m.library.Grows m'.library := hlibrary.toGrows
  -- The machine without the new calls.
  have hmoved : (m'.withFrames (m.goTo target).frames).Rears m'.complete := by
    refine h.moves hcalls hposition hkinship hgrows (calls_goTo hcalls target) hslots fun o ho _ => ?_
    have hgrown := (hcomplete o ho).grows h.lineal hgrows
    unfold Machine.complete
    rw [hkinship]
    exact hgrown
  refine ⟨hmoved.lineal, ?_⟩
  rw [hcalls']
  exact Kinship.Rearing.enter hmoved.calls hentered

/-! ### Where objects under construction are -/

/-- What an instruction takes is above slot 0 of all calls, unless it is the object that a unit returns. -/
theorem Ready.base_add_taken_lt (h : m.Ready past L a) (hcalls : m.calls = f :: rest)
    (hat : f.code.At f.position i) (hret : i ≠ .ret) (hg : g ∈ m.calls) : g.base + i.taken < m.stack.size := by
  have hallowed := h.arranged.allowed hcalls hat
  have hsize := h.arranged.size_eq hcalls
  have htaken : i.taken < (L.shapeOf f).height :=
    (hallowed.taken_lt (h.arranged.proper hcalls hat)).resolve_right fun hi => hret hi.1
  obtain ⟨_, hmidway, _⟩ := h.arranged
  have hle := hmidway.base_le hcalls hg
  omega

/-- An instruction does not take the value in a slot, and does not put another one there: as a local, through an open
cell, or as the object of a unit. -/
structure Avoids (m : Machine) (f : Frame) (i : Instruction) (slot : Nat) : Prop where
  stays : i ≠ .ret
  taken : slot + i.taken < m.stack.size
  assigned : ∀ k, i = .setLocal k → slot ≠ f.base + k
  captured : ∀ index, i = .setUpvalue index → (slot, f.closure.cells[index]?.getD 0) ∉ m.cells.opened
  made : ∀ name, i = .object name → slot ≠ f.base

theorem Avoids.execute {slot next : Nat} (h : m.Avoids f i slot) (hcells : m.cells.Consistent)
    (hmoves : i.movesSlots ≠ false) (m1 : Machine) (hstack1 : m1.stack = m.stack) (hcells1 : m1.cells = m.cells) :
    (Exec.execute f next i).Gives m1 (fun _ m' => m'.stack[slot]? = m.stack[slot]?) fun _ _ => False := by
  cases i with
  | setLocal k =>
    show (m1.stack.setIfInBounds (f.base + k) _)[slot]? = _
    rw [hstack1]
    exact Array.getElem?_setIfInBounds_ne (h.assigned k rfl).symm
  | setUpvalue index =>
    show (m1.cells.write (f.closure.cells[index]?.getD 0) _ m1.stack).2[slot]? = _
    rw [hcells1, hstack1]
    unfold Cells.write
    split
    · rename_i slot' hid
      apply Array.getElem?_setIfInBounds_ne
      rintro rfl
      exact h.captured index rfl ((hcells.opened_iff _ _).mpr hid)
    · rfl
    · rfl
  | object name =>
    show (m1.stack.setIfInBounds f.base _)[slot]? = _
    rw [hstack1]
    exact Array.getElem?_setIfInBounds_ne (h.made name rfl).symm
  | ret => exact absurd rfl h.stays
  | _ => exact absurd rfl hmoves

section

variable (h : m.Ready past L a) (hcalls : m.calls = f :: rest) (hat : f.code.At f.position i)

include h hcalls hat

/-- No instruction replaces an object under construction, but the one that makes it. -/
theorem Ready.avoids
    (hret : i ≠ .ret) (hg : g ∈ m.calls) (hkind : g.IsObject) (hmade : ∀ name, i = .object name → g ≠ f) :
    m.Avoids f i g.base where
  stays := hret
  taken := h.base_add_taken_lt hcalls hat hret hg
  assigned k hi := by
    subst hi
    rw [hcalls] at hg
    rcases List.mem_cons.mp hg with rfl | hg
    · exact absurd hkind (h.arranged.allowed hcalls hat).operands.2
    · have hlt := h.arranged.base_lt hcalls hg
      omega
  captured index hi hopened := by
    subst hi
    have hvalid := h.closure_valid hcalls
    have hindex : index < f.closure.cells.size := by
      rw [hvalid.size_eq]
      exact (h.arranged.allowed hcalls hat).operands
    refine hvalid.spares index _ g.base (.here hat) ?_ hopened ⟨g, mem_calls.mp hg, hkind, rfl⟩
    rw [Array.getElem?_eq_getElem hindex]
    rfl
  made name hi := by
    rw [hcalls] at hg
    exact Nat.ne_of_lt (h.arranged.base_lt hcalls ((List.mem_cons.mp hg).resolve_left (hmade name hi)))

theorem Ready.sparesObjects (hret : i ≠ .ret) (hobject : ∀ name, i ≠ .object name) :
    (execute f (f.position + i.size) i).Gives (m.goTo (f.position + i.size)) (fun _ m' => m.SparesObjects m')
      fun _ m' => m.SparesObjects m' := by
  have havoids : ∀ g ∈ m.calls, g.IsObject → m.Avoids f i g.base :=
    fun g hg hkind => h.avoids hcalls hat hret hg hkind fun name hi => absurd hi (hobject name)
  by_cases hmoves : i.movesSlots = false
  · exact (execute_spares hmoves).mono (fun _ m' hspares g hg hkind => hspares.below g.base (havoids g hg hkind).taken)
      fun _ m' hspares g hg hkind => hspares.1.below g.base (havoids g hg hkind).taken
  · have hexecute : ∀ g ∈ m.calls, g.IsObject → (execute f (f.position + i.size) i).Gives
        (m.goTo (f.position + i.size)) (fun _ m' => m'.stack[g.base]? = m.stack[g.base]?) fun _ _ => False :=
      fun g hg hkind => (havoids g hg hkind).execute h.sound.cells hmoves _ rfl rfl
    exact Gives.self.mono (fun _ m' hrun g hg hkind => (hexecute g hg hkind).ok hrun)
      fun _ m' hrun g hg hkind => ((hexecute g hg hkind).error hrun).elim

theorem Ready.position_ne (hobject : f.IsObject) (hne : ∀ name, i ≠ .object name) : f.position ≠ 0 := by
  intro hzero
  obtain ⟨name, hfirst⟩ := (h.arranged.layout hcalls).constructs hobject
  exact hne name (hat.unique (hzero ▸ hfirst))

theorem Ready.builds (hobject : f.IsObject) (hne : ∀ name, i ≠ .object name) : ∃ o, f.Builds m.stack o := by
  obtain ⟨o, ho⟩ := h.arranged.built hcalls hat hobject hne
  exact ⟨o, hobject, h.position_ne hcalls hat hobject hne, ho⟩

end

end Machine

/-! ### Instructions -/

/-- However an action ends, objects are in line. If it does not end the run, calls go on to look after the
objects they have made. -/
def Exec.StaysInLine (m : Machine) (x : Exec Unit) : Prop :=
  x.Gives m (fun _ m' => m'.Rears m'.works) fun stop m' =>
    Kinship.Lineal m'.library m'.objects.kinship ∧ ∀ r, stop = .request r → m'.Rears (m'.needs r)

variable {W : Frame → ObjectId → Prop}

section

variable (h : m.Rears W) (hready : m.Ready past L a) (hcalls : m.calls = f :: rest) (hat : f.code.At f.position i)
  (hcomplete : ∀ o, f.Builds m.stack o → m.complete f o)

include h hready hcalls hat hcomplete

theorem staysInLine_plain (hpath : i.leavesPath = false) (hforth : i.bringsForth = false) :
    StaysInLine (m.goTo (f.position + i.size)) (execute f (f.position + i.size) i) := by
  have hret : i ≠ .ret := by
    rintro rfl
    cases hpath
  have hobject : ∀ name, i ≠ .object name := by
    rintro name rfl
    cases hforth
  have hposition : f.IsObject → f.position ≠ 0 := fun hf => hready.position_ne hcalls hat hf hobject
  have henters : KeepsFrom Enters (m.goTo (f.position + i.size)) (execute f (f.position + i.size) i) := by
    refine shortsighted_enters.execute (.inl shortsighted_enters) (fun _ _ => ⟨rfl, .refl _, .of_eq rfl⟩)
      (fun _ _ _ _ => ?_)
      (fun _ _ _ _ => ?_) (.inr hpath) (.inr hforth) (.inl fun _ _ => ⟨rfl, .refl _, .of_eq rfl⟩)
      (.inl fun _ _ => ⟨rfl, .refl _, .of_eq rfl⟩)
    · exact ⟨Objects.kinship_modify (g := (·.putField _ _)) (fun _ => rfl) (fun _ => rfl) _, .refl _, .of_eq rfl⟩
    · exact ⟨Objects.kinship_modify (g := (·.putMethod _ _)) (fun _ => rfl) (fun _ => rfl) _, .refl _, .of_eq rfl⟩
  apply (henters.and (hready.sparesObjects hcalls hat hret hobject)).mono
  · rintro _ m' ⟨henters, hslots⟩
    exact (h.goes hcalls hcomplete hposition henters hslots).works
  · rintro stop m' ⟨⟨henters, _⟩, hslots⟩
    have hrears := h.goes hcalls hcomplete hposition henters hslots
    exact ⟨hrears.lineal, fun r _ => hrears.needs r⟩

theorem Machine.Rears.jumps
    (hobject : ∀ name, i ≠ .object name) (target : Nat) : (m.goTo target).Rears (m.goTo target).works :=
  (h.goes hcalls hcomplete (fun hf => hready.position_ne hcalls hat hf hobject) (shortsighted_enters.refl _)
    fun _ _ _ => rfl).works

theorem staysInLine_jump (hpath : i.leavesPath)
    (hret : i ≠ .ret) : StaysInLine (m.goTo (f.position + i.size)) (execute f (f.position + i.size) i) := by
  cases i with
  | jump distance | loop distance =>
    have hgone := h.jumps hready hcalls hat hcomplete (fun _ => nofun)
    show ((m.goTo _).goTo _).Rears ((m.goTo _).goTo _).works
    rw [goTo_goTo]
    exact hgone _
  | jumpIfFalse distance =>
    have hgone := h.jumps hready hcalls hat hcomplete (fun _ => nofun)
    unfold StaysInLine execute
    rw [gives_bind, gives_peek, gives_ite]
    refine ⟨fun _ => hgone _, fun _ => ?_⟩
    show ((m.goTo _).goTo _).Rears ((m.goTo _).goTo _).works
    rw [goTo_goTo]
    exact hgone _
  | ret => exact absurd rfl hret
  | _ => cases hpath

end

theorem Machine.Rears.constructs {path : String} (h : m.Rears W) (hcalls : m.calls = f :: rest)
    (hp : m.library.programs[path]? = some p) (hroutine : p.routine = f.closure.routine)
    (hsize : m.stack.size = f.base + 1) (hbase : ∀ g ∈ rest, g.base < f.base)
    (hobjects' : m'.objects = m.objects.push { name := path }) (hlibrary' : m'.library = m.library)
    (hstack' : m'.stack = m.stack.setIfInBounds f.base (.object m.objects.size))
    (hcalls' : m'.calls = { f with position := 3 } :: rest) : m'.Rears m'.works := by
  have hlineal := h.lineal
  obtain ⟨_, hrest⟩ := hcalls ▸ h.calls
  have hK : m.objects.kinship.size = m.objects.size := Objects.size_kinship
  have hslots : ∀ g ∈ rest, m'.stack[g.base]? = m.stack[g.base]? := by
    intro g hg
    have hlt := hbase g hg
    rw [hstack', Array.getElem?_setIfInBounds_ne (by omega)]
  have hslot : m'.stack[f.base]? = some (.object m.objects.size) := by
    rw [hstack', Array.getElem?_setIfInBounds_self_of_lt (by omega)]
  have htop : m'.stack.back? = some (.object m.objects.size) := by
    rw [Array.back?_eq_getElem?, show m'.stack.size - 1 = f.base by rw [hstack', Array.size_setIfInBounds]; omega,
      hslot]
  have hnew : (m.objects.kinship.add path).Named m.objects.size path :=
    Kinship.named_add.mpr (.inr ⟨hK.symm, rfl⟩)
  unfold Machine.works
  constructor
  · rw [hobjects', hlibrary', Objects.kinship_push]
    exact hlineal.add hp
  rw [hcalls', hobjects', hlibrary', Objects.kinship_push]
  refine ⟨fun o ho => ?_, ?_⟩
  · cases Option.some.inj (hslot.symm.trans ho.2.2)
    refine ⟨⟨⟨path, p, hnew, hp, hroutine⟩, ?_⟩, ?_, fun g hg o' hg' => ?_⟩
    · exact Kinship.childless_add.mpr (hlineal.childless (Nat.le_of_eq hK))
    · by_cases hinherits : ∃ parent, f.closure.routine.Inherits parent
      · obtain ⟨parent, hparent⟩ := hinherits
        exact .inr ⟨parent, hparent, .own htop⟩
      · left
        intro name p' parent hname hp' hparent
        cases hname.unique hnew
        cases hp.symm.trans hp'
        exact absurd ⟨parent, hroutine ▸ hparent⟩ hinherits
    · have hold : g.Builds m.stack o' := ⟨hg'.1, hg'.2.1, (hslots g hg).symm.trans hg'.2.2⟩
      exact hK ▸ (hrest.rears hg hold).lt_size
  · refine hrest.congr (.refl _) (fun g hg _ _ => hslots g hg) (fun g _ o _ hg => ?_) ?_
    · obtain ⟨name, p', hname, hp', hroutine'⟩ := hg.unit
      exact ⟨⟨⟨name, p', Kinship.named_add.mpr (.inl hname), hp', hroutine'⟩,
        Kinship.childless_add.mpr hg.childless⟩, fun ho => ho.add hg.lt_size path⟩
    · exact fun g _ _ o _ hg hawaits => hawaits.grows (.refl _) fun ho => ho.add hg.lt_size path

theorem staysInLine_construct {index : Nat} (h : m.Rears W) (hready : m.Ready past L a)
    (hinside : m.Inside .whole) (hcalls : m.calls = f :: rest) (hat : f.code.At f.position (.object index)) :
    StaysInLine (m.goTo (f.position + (Instruction.object index).size))
      (execute f (f.position + (Instruction.object index).size) (.object index)) := by
  have hobject : f.IsObject := (hready.arranged.allowed hcalls hat).values
  obtain ⟨path, p, hp, hroutine, source, hcompiled⟩ :=
    hinside.hasUnit (mem_calls.mp (hcalls ▸ List.mem_cons_self)) hobject
  have hmakes := makes_of_compileObject hcompiled
  have hzero := hmakes.once _ _ hat
  have hname : f.code.nameAt index = path := by
    obtain ⟨index', hat', htext⟩ := hmakes.first
    rw [hzero] at hat
    cases hat.unique hat'
    rw [Code.nameAt, show f.code.constants[index]? = _ from htext]
  -- The stack has room for the object and nothing else.
  have hsize : m.stack.size = f.base + 1 := by
    have hlayout := hready.arranged.layout hcalls
    have hheight : (L.shape f.closure.routine 0).height = f.closure.routine.arity + 1 := hlayout.entry.height_eq
    rw [hready.arranged.size_eq hcalls, Layouts.shapeOf, hzero, hheight,
      (isUnit_of_compileObject hcompiled).arity_eq]
  have hcalls' := calls_goTo hcalls 3
  rw [show f.position + (Instruction.object index).size = 3 by rw [hzero]; rfl]
  show Machine.Rears { (m.goTo 3).note _ with
    objects := m.objects.push { name := f.code.nameAt index }
    stack := m.stack.setIfInBounds f.base (.object m.objects.size) } _
  rw [hname]
  exact h.constructs hcalls hp hroutine hsize (fun g hg => hready.arranged.base_lt hcalls hg) rfl rfl rfl hcalls'

theorem path_unique {r : Routine} {path path' source source' : String}
    (h : compileObject path source = .ok r) (h' : compileObject path' source' = .ok r) : path = path' := by
  obtain ⟨index, hat, htext⟩ := (makes_of_compileObject h).first
  obtain ⟨index', hat', htext'⟩ := (makes_of_compileObject h').first
  cases hat.unique hat'
  rw [htext] at htext'
  cases htext'
  rfl

theorem Kinship.Works.complete {top} (h : K.Works l top f o) (hat : f.code.At f.position i)
    (hconstant : ∀ index, i ≠ .constant index) (hcompile : i ≠ .compile) (hinherit : i ≠ .inherit) :
    K.Complete l o := by
  rcases h with hcomplete | ⟨path, ⟨index, hat3, _, hat6, hat7⟩, hexpects⟩
  · exact hcomplete
  · generalize hposition : f.position = position at hexpects
    rw [hposition] at hat
    cases hexpects with
    | own => exact absurd (hat.unique hat3) (hconstant index)
    | named => exact absurd (hat.unique hat6) hcompile
    | loaded => exact absurd (hat.unique hat7) hinherit
    | made => exact absurd (hat.unique hat7) hinherit

theorem Machine.Rears.returns (h : m.Rears m.works) (hready : m.Ready past L a) (hkeyed : m.library.Keyed)
    (hcalls : m.calls = f :: g :: rest) (hat : f.code.At f.position .ret) (ho : g.Builds m.stack o)
    (hawaits : m.objects.kinship.Awaits m.library f g o) :
    m.objects.kinship.Works m.library (some (m.stack.back?.getD .nil)) g o := by
  rcases hawaits with hcomplete | ⟨path, p, hpath, hposition, hp, hroutine⟩
  · exact .inl hcomplete
  right
  refine ⟨path, hpath, ?_⟩
  rw [hposition]
  obtain ⟨source, hcompiled⟩ := hkeyed _ p hp
  have hobject : f.IsObject := by
    rw [Frame.IsObject, ← hroutine]
    exact (isUnit_of_compileObject hcompiled).kind_eq
  obtain ⟨q, hq⟩ := hready.builds hcalls hat hobject (by rintro _ ⟨⟩)
  obtain ⟨hf, _⟩ := hcalls ▸ h.calls
  obtain ⟨hrears, hwork, horder⟩ := hf q hq
  have hcomplete := hwork.complete hat (by rintro _ ⟨⟩) (by rintro ⟨⟩) (by rintro ⟨⟩)
  -- The name of the object is the path the other call asked for.
  obtain ⟨name, p', hname, hp', hroutine'⟩ := hrears.unit
  obtain ⟨source', hcompiled'⟩ := hkeyed name p' hp'
  rw [hroutine', ← hroutine] at hcompiled'
  obtain rfl := path_unique hcompiled' hcompiled
  have hsize := hready.arranged.size_eq hcalls
  have hone : (L.shapeOf f).height = 1 := (if_pos hobject).mp (hready.arranged.allowed hcalls hat).values
  have hback : m.stack.back? = some (.object q) := by
    rw [Array.back?_eq_getElem?, show m.stack.size - 1 = f.base by omega]
    exact hq.2.2
  rw [hback]
  exact .made rfl (horder g List.mem_cons_self o ho) hname hcomplete hrears.childless

theorem staysInLine_leave (h : m.Rears m.works) (hready : m.Ready past L a) (hkeyed : m.library.Keyed)
    (hcalls : m.calls = f :: rest) (hat : f.code.At f.position .ret) (position : Nat) :
    StaysInLine (m.goTo position) (leave f) := by
  have hsize := hready.arranged.size_eq hcalls
  obtain ⟨_, hrest⟩ := hcalls ▸ h.calls
  have hcalls' : ((m.goTo position).leave f.base).calls = rest := calls_pop (calls_goTo hcalls position)
  have hslots : ∀ g ∈ rest, ∀ v, ((m.stack.pop.shrink f.base).push v)[g.base]? = m.stack[g.base]? := by
    intro g hg v
    have hlt := hready.arranged.base_lt hcalls hg
    have hpos := (hready.arranged.proper hcalls hat).locals_pos
    have hle := (hready.arranged.proper hcalls hat).locals_le
    rw [Array.getElem?_push, Array.size_shrink, Array.size_pop, if_neg (by omega), getElem?_shrink hlt,
      Array.getElem?_pop, if_pos (by omega)]
  refine gives_leave f (fun _ => ⟨h.lineal, nofun⟩) fun _ => ⟨h.lineal, ?_⟩
  show m.objects.kinship.Rearing m.library ((m.stack.pop.shrink f.base).push (m.stack.back?.getD .nil))
    (m.objects.kinship.Works m.library ((m.stack.pop.shrink f.base).push (m.stack.back?.getD .nil)).back?)
    ((m.goTo position).leave f.base).calls
  rw [hcalls', Array.back?_push]
  refine hrest.congr (.refl _) (fun g hg _ _ => hslots g hg _) (fun g _ o _ hg => ⟨hg, id⟩) ?_
  rintro g rest' rfl o ho _ hawaits
  exact h.returns hready hkeyed hcalls hat ho hawaits

/-! ### Parents -/

theorem Machine.Ready.top_eq (hready : m.Ready past L a) (hcalls : m.calls = f :: rest)
    (hat : f.code.At f.position .inherit) (ho : f.Builds m.stack o) {o' : ObjectId}
    (htop : m.stack.pop[m.stack.pop.size - 1]?.getD .nil = .object o') : o' = o := by
  obtain ⟨_, _, hheight, _⟩ := (hready.arranged.allowed hcalls hat).values
  have hsize := hready.arranged.size_eq hcalls
  rw [Array.getElem?_pop, Array.size_pop, if_pos (by omega), show m.stack.size - 1 - 1 = f.base by omega,
    ho.2.2] at htop
  exact (Value.object.inj htop).symm

theorem staysInLine_inherit (h : m.Rears W) (hready : m.Ready past L a) (hinside : m.Inside .whole)
    (hcalls : m.calls = f :: rest) (hat : f.code.At f.position .inherit)
    (hcomplete : ∀ o, f.Builds m.stack o → m.complete f o) :
    StaysInLine (m.goTo (f.position + Instruction.inherit.size))
      (execute f (f.position + Instruction.inherit.size) .inherit) := by
  have hobject : f.IsObject := (hready.arranged.allowed hcalls hat).values.1
  obtain ⟨o, ho⟩ := hready.builds hcalls hat hobject (by rintro _ ⟨⟩)
  obtain ⟨hf, _⟩ := hcalls ▸ h.calls
  obtain ⟨name, p, hname, hp, hroutine⟩ := (hf o ho).1.unit
  obtain ⟨path, unit, _, _, source, hcompiled⟩ :=
    hinside.hasUnit (mem_calls.mp (hcalls ▸ List.mem_cons_self)) hobject
  obtain ⟨parent, hparent⟩ := (makes_of_compileObject hcompiled).inherits _ hat
  obtain ⟨q, hq⟩ := hcomplete o ho name p parent hname hp (hroutine ▸ hparent)
  rw [Objects.parent?_kinship] at hq
  unfold StaysInLine execute
  rw [gives_bind, gives_pop]
  refine gives_inherit (fun o' _ _ _ htop hnone => ?_) fun _ _ _ => ⟨h.lineal, nofun⟩
  cases hready.top_eq hcalls hat ho htop
  cases hq.symm.trans hnone

theorem Machine.Rears.links {path : String} (h : m.Rears W) (hcalls : m.calls = f :: rest)
    (ho : f.Builds m.stack o) (hpath : f.closure.routine.Inherits path) (hlt : o < q)
    (hname : m.objects.kinship.Named q (m.library.key path))
    (hcomplete : m.objects.kinship.Complete m.library q) (hchildless : m.objects.kinship.Childless q)
    (hobjects' : m'.objects = m.objects.link o q) (hlibrary' : m'.library = m.library)
    (hcalls' : m'.calls = { f with position := target } :: rest) (hslots : m.SparesObjects m') :
    m'.Rears m'.complete := by
  have hlineal := h.lineal
  obtain ⟨hf, hrest⟩ := hcalls ▸ h.calls
  obtain ⟨hrears, _, horder⟩ := hf o ho
  obtain ⟨name, p, hown, hp, hroutine⟩ := hrears.unit
  unfold SparesObjects at hslots
  rw [hcalls] at hslots
  have hbuilds : ∀ g ∈ rest, ∀ o', g.Builds m'.stack o' → g.Builds m.stack o' := fun g hg o' hg' =>
    ⟨hg'.1, hg'.2.1, (hslots g (List.mem_cons_of_mem _ hg) hg'.1).symm.trans hg'.2.2⟩
  have hlinked : ∀ g o', o' < q → m.objects.kinship.Raises m.library g o' →
      (m.objects.kinship.link o q).Raises m.library g o' := by
    intro g o' hlt' hg
    obtain ⟨name', p', hname', hunit⟩ := hg.unit
    exact ⟨⟨name', p', Kinship.named_link.mpr hname', hunit⟩, hg.childless.link (Nat.ne_of_gt hlt') o⟩
  unfold Machine.complete
  constructor
  · rw [hobjects', hlibrary', Objects.kinship_link]
    exact hlineal.link hown hp (hroutine ▸ hpath) hlt hname hcomplete hchildless
  rw [hcalls', hobjects', hlibrary', Objects.kinship_link]
  refine ⟨fun o' ho' => ?_, ?_⟩
  · have hslot := hslots f List.mem_cons_self ho'.1
    cases Option.some.inj (ho'.2.2.symm.trans (hslot.trans ho.2.2))
    refine ⟨⟨(hlinked f o hlt hrears).unit, (hlinked f o hlt hrears).childless⟩, ?_, ?_⟩
    · exact .of_parent? (Kinship.parent?_link_self hrears.lt_size)
    · exact fun g hg o' hg' => horder g hg o' (hbuilds g hg o' hg')
  · refine hrest.congr (.refl _) (fun g hg hobject _ => hslots g (List.mem_cons_of_mem _ hg) hobject)
      (fun g hg o' hg' hrears' => ⟨?_, fun hc => hc.link o q⟩) ?_
    · exact hlinked g o' (Nat.lt_trans (horder g hg o' hg') hlt) hrears'
    · exact fun g _ _ o' _ _ hawaits => hawaits.grows (.refl _) fun hc => hc.link o q

theorem Machine.sparesObjects_push (hbase : ∀ g ∈ m.calls, g.base < m.stack.size)
    (hstack' : m'.stack = m.stack.push v) : m.SparesObjects m' := by
  intro g hg _
  have hlt := hbase g hg
  rw [hstack', Array.getElem?_push, if_neg (by omega)]

theorem Machine.Rears.push (h : m.Rears W)
    (hbase : ∀ g ∈ m.calls, g.base < m.stack.size) (hobjects' : m'.objects = m.objects)
    (hgrows : m.library.Grows m'.library) (hframes' : m'.frames = m.frames) (hstack' : m'.stack = m.stack.push v)
    (hW : ∀ f rest, m.calls = f :: rest → ∀ o, f.Builds m.stack o → W f o → W' f o) : m'.Rears W' := by
  have hcalls' : m'.calls = m.calls := by rw [Machine.calls, Machine.calls, hframes']
  refine ⟨hobjects' ▸ h.lineal.grows hgrows, ?_⟩
  rw [hcalls', hobjects']
  refine h.calls.congr hgrows (fun g hg hobject _ => sparesObjects_push hbase hstack' g hg hobject) ?_ ?_
  · exact fun g _ o _ hg => ⟨hg.grows hgrows, fun ho => ho.grows h.lineal hgrows⟩
  · exact fun g rest heq o ho _ => hW g rest heq o ho

theorem staysInLine_receive {key : String} (h : m.Rears (m.objects.kinship.Needs m.library key))
    (hbase : ∀ g ∈ m.calls, g.base < m.stack.size) (caller : Option String) {loading : Library.Loading}
    (hcomes : loading.Comes m.library key m.nextSerial (m.library.programs[key]? = none)) :
    StaysInLine m (receive caller loading) := by
  have hgrows := hcomes.enrolls.toGrows
  have hlineal := h.lineal.grows hgrows
  refine gives_receive (fun p hresult => ?_) (fun _ => ⟨hlineal, nofun⟩) fun _ _ => ⟨hlineal, nofun⟩
  refine h.push (v := .program p) hbase rfl hgrows rfl rfl fun f rest _ o _ hneeds => ?_
  rcases hneeds with hcomplete | ⟨path, hpath, hposition, rfl⟩
  · exact .inl (hcomplete.grows h.lineal hgrows)
  · refine .inr ⟨path, hpath, ?_⟩
    rw [hposition]
    refine .loaded Array.back?_push ?_
    show loading.library.programs[loading.library.key path]? = some p
    rw [hgrows.key_eq]
    exact hcomes.kept hresult

theorem staysInLine_load {path : String} (h : m.Rears (m.objects.kinship.Needs m.library (m.library.key path)))
    (hbase : ∀ g ∈ m.calls, g.base < m.stack.size) (caller : Option String) :
    StaysInLine m (Exec.load caller path) := by
  refine gives_load (fun loading hbrings => staysInLine_receive h hbase caller hbrings) fun file _ => ?_
  refine ⟨h.lineal, fun r hr => ?_⟩
  cases hr
  exact h

section

variable {path : String} (h : m.Rears m.works) (hready : m.Ready past L a) (hcalls : m.calls = f :: rest)
  (ho : f.Builds m.stack o) (hpath : f.closure.routine.Inherits path)

include h hready hcalls ho hpath

theorem staysInLine_path (hposition : f.position = 3) (hat : f.code.At f.position i) :
    StaysInLine (m.goTo (f.position + i.size)) (execute f (f.position + i.size) i) := by
  obtain ⟨index, hat', htext, _⟩ := id hpath
  rw [hposition] at hat ⊢
  cases hat.unique hat'
  obtain ⟨_, hmidway, _⟩ := hready.arranged
  have hbase : ∀ g ∈ m.calls, g.base < m.stack.size := fun g hg => hmidway.base_add_lt hg
  show StaysInLine (m.goTo 6) (pushConstant (f.code.constants[index]?.getD (.text "")))
  rw [show f.code.constants[index]? = _ from htext]
  refine h.moves hcalls (fun _ => ho.2.1) rfl (.refl _) (calls_goTo hcalls 6)
    (sparesObjects_push hbase (v := .text path) rfl) fun _ _ _ => ?_
  exact .inr ⟨path, hpath, .named Array.back?_push⟩

theorem staysInLine_compile (hposition : f.position = 6) (hat : f.code.At f.position i)
    (htop : m.stack.back? = some (.text path)) :
    StaysInLine (m.goTo (f.position + i.size)) (execute f (f.position + i.size) i) := by
  obtain ⟨_, _, _, hat', _⟩ := id hpath
  have hi : i = .compile := Code.At.unique (hposition ▸ hat) hat'
  subst hi
  have hbusy := (hready.goTo hcalls hat rfl).pop
  have hneeds : ((m.goTo (f.position + Instruction.compile.size)).withStack m.stack.pop).Rears
      (m.objects.kinship.Needs m.library (m.library.key path)) := by
    refine h.moves hcalls (fun _ => ho.2.1) rfl (.refl _) (calls_goTo hcalls _) (fun g hg _ => ?_) fun _ _ _ => ?_
    · have hlt := hready.base_add_taken_lt hcalls hat nofun hg
      exact (Spares.pop m).below g.base hlt
    · exact .inr ⟨path, hpath, congrArg (· + 1) hposition, rfl⟩
  unfold StaysInLine execute
  rw [gives_bind, gives_pop, show (m.goTo _).stack.back? = _ from htop]
  exact staysInLine_load hneeds (fun g hg => hbusy.midway.base_add_lt hg) none

theorem staysInLine_link (hposition : f.position = 7) (hat : f.code.At f.position i)
    (htop : m.stack.back? = some (.object q)) (hlt : o < q) (hname : m.objects.kinship.Named q (m.library.key path))
    (hcomplete : m.objects.kinship.Complete m.library q) (hchildless : m.objects.kinship.Childless q) :
    StaysInLine (m.goTo (f.position + i.size)) (execute f (f.position + i.size) i) := by
  obtain ⟨_, _, _, _, hat'⟩ := id hpath
  have hi : i = .inherit := Code.At.unique (hposition ▸ hat) hat'
  subst hi
  have hspares := hready.sparesObjects hcalls hat nofun fun _ => nofun
  have hlinks : (execute f (f.position + Instruction.inherit.size) .inherit).Gives
      (m.goTo (f.position + Instruction.inherit.size))
      (fun _ m' => m.SparesObjects m' → m'.Rears m'.complete)
      fun stop m' => Kinship.Lineal m'.library m'.objects.kinship ∧ ∀ r, stop ≠ .request r := by
    unfold execute
    rw [gives_bind, gives_pop, show (m.goTo _).stack.back? = _ from htop]
    refine gives_inherit (fun o' q' events hq' htop' _ hslots => ?_) fun _ _ _ => ⟨h.lineal, fun _ => nofun⟩
    cases hq'
    cases hready.top_eq hcalls hat ho htop'
    exact h.links hcalls ho hpath hlt hname hcomplete hchildless rfl rfl (calls_goTo hcalls _) hslots
  apply (hspares.and hlinks).mono
  · exact fun _ m' hm' => (hm'.2 hm'.1).works
  · exact fun stop m' hm' => ⟨hm'.2.1, fun r hr => absurd hr (hm'.2.2 r)⟩

end

/-! ### Steps -/

theorem staysInLine_execute (h : m.Rears m.works) (hready : m.Ready past L a) (hinside : m.Inside .whole)
    (hkeyed : m.library.Keyed) (hcalls : m.calls = f :: rest) (hat : f.code.At f.position i) :
    StaysInLine (m.goTo (f.position + i.size)) (execute f (f.position + i.size) i) := by
  by_cases hcomplete : ∀ o, f.Builds m.stack o → m.complete f o
  · by_cases hforth : i.bringsForth = false
    · by_cases hpath : i.leavesPath = false
      · exact staysInLine_plain h hready hcalls hat hcomplete hpath hforth
      · by_cases hret : i = .ret
        · subst hret
          exact staysInLine_leave h hready hkeyed hcalls hat _
        · exact staysInLine_jump h hready hcalls hat hcomplete (by simpa using hpath) hret
    · cases i with
      | object index => exact staysInLine_construct h hready hinside hcalls hat
      | inherit => exact staysInLine_inherit h hready hinside hcalls hat hcomplete
      | _ => exact absurd rfl hforth
  · obtain ⟨o, ho⟩ := not_forall.mp hcomplete
    obtain ⟨ho, hincomplete⟩ := Classical.not_imp.mp ho
    obtain ⟨hf, _⟩ := hcalls ▸ h.calls
    obtain ⟨_, hwork, _⟩ := hf o ho
    obtain ⟨path, hpath, hexpects⟩ := hwork.resolve_left hincomplete
    obtain ⟨position, hposition⟩ : ∃ position, f.position = position := ⟨_, rfl⟩
    rw [hposition] at hexpects
    cases hexpects with
    | own _ => exact staysInLine_path h hready hcalls ho hpath hposition hat
    | named htop => exact staysInLine_compile h hready hcalls ho hpath hposition hat htop
    | loaded htop _ =>
      rw [Array.back?_eq_getElem?] at htop
      exact (hready.sound.valid_of_getElem? htop).elim
    | made htop hlt hname hparent hchildless =>
      exact staysInLine_link h hready hcalls ho hpath hposition hat htop hlt hname hparent hchildless

/-- The call of a program that is on top of the stack. It makes the parent that the call below waits for, if
that is what it does. -/
theorem Machine.Rears.begins (h : m.Rears m.works) (hback : m.stack.back? = some (.program p))
    (hroutine : p.routine = g.closure.routine) (hposition : g.position = 0)
    (hobjects' : m'.objects = m.objects) (hlibrary' : m'.library = m.library)
    (hcalls' : m'.calls = g :: m.calls) (hslots : m.SparesObjects m') : m'.Rears m'.works := by
  unfold Machine.works
  constructor
  · rw [hobjects', hlibrary']
    exact h.lineal
  rw [hcalls', hobjects', hlibrary']
  refine ⟨fun o ho => absurd hposition ho.2.1, ?_⟩
  refine h.calls.congr (.refl _) (fun f hf hobject _ => hslots f hf hobject) (fun _ _ _ _ hf => ⟨hf, id⟩) ?_
  rintro f rest _ o _ _ (hcomplete | ⟨path, hpath, hexpects⟩)
  · exact .inl hcomplete
  generalize heq : f.position = position at hexpects
  rw [hback] at hexpects
  cases hexpects with
  | own htop => cases htop
  | named htop => cases htop
  | loaded htop hp =>
    cases htop
    exact .inr ⟨path, p, hpath, heq, hp, hroutine⟩
  | made htop => cases htop

theorem Machine.Rears.starts (h : m.Rears m.works) (hrunning : m.Running past L a) :
    startProgram.Gives m (fun _ m' => m'.Rears m'.works)
      fun stop m' => Kinship.Lineal m'.library m'.objects.kinship ∧ ∀ r, stop ≠ .request r := by
  refine gives_startProgram_of (fun p hback => ?_) fun _ => h
  obtain ⟨m0, rfl, _, _, hbusy, _⟩ := hrunning.of_program hback
  refine gives_callClosure ⟨h.lineal, fun _ => nofun⟩ ⟨h.lineal, fun _ => nofun⟩ fun _ _ => ?_
  refine h.begins hback rfl rfl rfl rfl calls_push fun g hg _ => ?_
  have hlt : g.base + 0 < m0.stack.size := hbusy.midway.base_add_lt hg
  show ((m0.stack.push _).pop.push _)[g.base]? = (m0.stack.push _)[g.base]?
  rw [Array.pop_push, Array.getElem?_push, Array.getElem?_push, if_neg (by omega), if_neg (by omega)]

theorem Machine.Rears.step (h : m.Rears m.works) (hrunning : m.Running past L a) (hinside : m.Inside .whole)
    (hkeyed : m.library.Keyed) : StaysInLine m Exec.step := by
  have hstart := ((h.starts hrunning).and (gives_startProgram hrunning)).and
    ((StaysIn.startProgram Realm.lawful_whole hinside).and (lenient_enrolls.startProgram m))
  apply gives_step
  apply hstart.mono
  · rintro _ m1 ⟨⟨h1, hready1⟩, hinside1, henrolls1⟩
    obtain ⟨f, rest, i, hcalls, hback, hat⟩ := hready1.exists_at
    refine ⟨f, i, hback, hat, fun events => ?_⟩
    have hnoted : ({ m1 with events } : Machine).Rears ({ m1 with events } : Machine).works :=
      ⟨h1.lineal, h1.calls⟩
    have hready : ({ m1 with events } : Machine).Ready past L a :=
      hready1.congr rfl rfl rfl (hready1.sound.congr rfl rfl rfl rfl rfl hready1.sound.library)
    exact staysInLine_execute hnoted hready (hinside1.noted events) (hkeyed.enrolls henrolls1) hcalls hat
  · rintro stop m1 ⟨⟨⟨hlineal, hne⟩, _⟩, _⟩
    exact ⟨hlineal, fun r hr => absurd hr (hne r)⟩

theorem Machine.Halts.base_lt (h : Halts past L a (.request r) m) (hg : g ∈ m.calls) : g.base < m.stack.size := by
  cases r with
  | source key file caller =>
    obtain ⟨_, hbusy, _⟩ := h
    exact hbusy.midway.base_add_lt hg
  | time =>
    have hbusy : m.Busy past L a 0 1 none := h
    exact hbusy.midway.base_add_lt hg

theorem Machine.Rears.answer {action : Exec Unit} (h : m.Rears (m.needs r))
    (hbase : ∀ g ∈ m.calls, g.base < m.stack.size) (hneeded : (Stop.request r).Needed m)
    (haction : Session.Answers r action) : StaysInLine m action := by
  cases haction with
  | @source key file caller text =>
    unfold StaysInLine receiveSource
    rw [gives_bind, gives_get, gives_bind, gives_get]
    exact staysInLine_receive h hbase caller (Library.comes_enroll hneeded text)
  | time n =>
    exact h.push (v := .number n) hbase rfl (.refl _) rfl rfl fun _ _ _ _ _ hcomplete => .inl hcomplete

end Mudscript
