import Mudscript.Proofs.DeclaredObjects

/-!
# The form of an object

The form of an object is all of it but the values of its fields: its name, which fields it has and in what
order, its methods and its parent. An object gets its form from the call that makes it. Each member is
declared by an instruction of this call, when it is the innermost one, and when the call is over nothing
changes the form any more.

Declarations are about the object in slot 0 of the innermost call. Calls that have made objects have made
different ones, the inner calls newer ones. So a declaration of an inner call is about another object, and
once the call of an object is over there is none that has the object in its slot 0.
-/

namespace Mudscript

open Machine Exec List

variable {depth : Nat} {r : Routine}

variable {past : Moment} {L : Layouts} {a : Activity} {m m' m1 : Machine} {f g : Frame} {rest below : List Frame}
  {i : Instruction} {c : Closure} {base : Nat} {o : ObjectId}

/-! ### Forms -/

structure Object.Form where
  name : String
  fields : List String
  methods : Members Closure
  parent : Option ObjectId

def Object.form (object : Object) : Object.Form :=
  ⟨object.name, object.fields.names, object.methods, object.parent⟩

def Objects.form? (objects : Objects) (o : ObjectId) : Option Object.Form := objects[o]?.map Object.form

def Instruction.declares : Instruction → Bool
  | .inherit | .field _ | .method _ => true
  | _ => false

theorem Object.form_putField {object : Object} {x : String} (h : (object.fields.get? x).isSome) (v : Value) :
    (object.putField x v).form = object.form := by
  show (⟨object.name, (object.fields.put x v).names, object.methods, object.parent⟩ : Object.Form) = _
  rw [Members.names_put_of_isSome h]
  rfl

/-- An instruction leaves the form of an object alone, unless it declares something in the call that has made
the object. -/
theorem Machine.Fetches.form?_eq (h : m.Fetches past L a m1 f rest i) (hperforms : m1.Performs f i (.ok () m'))
    (ho : o < m1.objects.size) : m'.objects.form? o = m1.objects.form? o ∨ i.declares = true ∧ f.Builds m1.stack o := by
  obtain ⟨change?, hchange, heq⟩ := hperforms.alters ho
  have hobject : m1.objects[o]? = some m1.objects[o] := Array.getElem?_eq_getElem ho
  rw [Objects.form?, Objects.form?, heq, hobject]
  cases change? with
  | none => exact .inl rfl
  | some change =>
    have hchanges := (hchange change).mp rfl
    by_cases hassigned : ∃ x v, change = .assigned x v
    · obtain ⟨x, v, rfl⟩ := hassigned
      exact .inl (congrArg some (Object.form_putField (hchanges.isSome hobject) v))
    · right
      refine ⟨?_, hchanges.builds h.ready h.calls_eq h.instruction fun x v heq => hassigned ⟨x, v, heq⟩⟩
      cases hchanges with
      | assigned => exact absurd ⟨_, _, rfl⟩ hassigned
      | field | method | parent => rfl

/-! ### Calls that have made objects -/

theorem Kinship.Rearing.pairwise {l : Library} {K : Kinship} {stack} {W : Frame → ObjectId → Prop}
    {calls : List Frame} (h : K.Rearing l stack W calls) :
    calls.Pairwise fun f g => ∀ o o', f.Builds stack o → g.Builds stack o' → o' < o := by
  induction calls generalizing W with
  | nil => exact .nil
  | cons f rest ih =>
    obtain ⟨hf, hrest⟩ := h
    exact .cons (fun g hg o o' ho ho' => (hf o ho).2.2 g hg o' ho') (ih hrest)

/-- The objects are the same, and no call has come to make one. -/
structure Machine.MakesNone (m m' : Machine) : Prop where
  objects_eq : m'.objects = m.objects
  builds : ∀ g ∈ m'.calls, ∀ o, g.Builds m'.stack o → g ∈ m.calls ∧ g.Builds m.stack o

theorem Machine.MakesNone.of_position (hobjects : m'.objects = m.objects) (h : ∀ g ∈ m'.calls, g.position = 0) :
    m.MakesNone m' :=
  ⟨hobjects, fun g hg _ hbuilds => absurd (h g hg) hbuilds.2.1⟩

theorem Machine.Running.makesNone (h : m.Running past L a) (hstart : startProgram m = .ok () m1) : m.MakesNone m1 := by
  rcases h.started hstart with ⟨_, rfl⟩ | ⟨p, hback, _, rfl⟩
  · exact ⟨rfl, fun g hg _ hbuilds => ⟨hg, hbuilds⟩⟩
  refine ⟨rfl, fun g hg o hbuilds => ?_⟩
  rcases mem_cons.mp (calls_push ▸ hg) with rfl | hg
  · exact absurd rfl hbuilds.2.1
  · have hlt := (h.base_lt hg).2 p hback
    refine ⟨hg, hbuilds.1, hbuilds.2.1, ?_⟩
    have hslot : (m.stack.pop.push (.closure ⟨m.nextSerial, p.routine, #[]⟩))[g.base]? = some (.object o) :=
      hbuilds.2.2
    rw [Array.getElem?_push, Array.getElem?_pop, Array.size_pop, if_neg (by omega), if_pos (by omega)] at hslot
    exact hslot

/-- A call that has made an object which was there before an instruction had made it by then. If the instruction
returns, that is another call than the innermost. -/
theorem Machine.Fetches.builds_before (h : m.Fetches past L a m1 f rest i)
    (hperforms : m1.Performs f i (.ok () m')) (ho : o < m1.objects.size) (hg : g ∈ m'.calls)
    (hbuilds : g.Builds m'.stack o) : ∃ g' ∈ m1.calls, g'.Builds m1.stack o ∧ (i = .ret → g' ∈ rest) := by
  have hbefore : ∀ g' ∈ m1.calls, (i = .ret → g' ∈ rest) → g'.IsObject → g'.position ≠ 0 →
      m'.stack[g'.base]? = some (.object o) → ∃ g' ∈ m1.calls, g'.Builds m1.stack o ∧ (i = .ret → g' ∈ rest) := by
    intro g' hg' hstays hobject hposition hslot
    exact ⟨g', hg', ⟨hobject, hposition, (h.object_eq hperforms hg' hstays hobject hposition).symm.trans hslot⟩, hstays⟩
  obtain ⟨hobject, hposition, hslot⟩ := hbuilds
  by_cases hret : i = .ret
  · subst hret
    have hmem : g ∈ rest := (hperforms.returns h.calls_eq).1 ▸ hg
    exact hbefore g (h.calls_eq ▸ mem_cons_of_mem _ hmem) (fun _ => hmem) hobject hposition hslot
  obtain ⟨entered, target, hcalls', _, hentered, _⟩ := hperforms.advances h.calls_eq hret
  rw [hcalls'] at hg
  rcases mem_append.mp hg with hg | hg
  · exact absurd (hentered g hg) hposition
  rcases mem_cons.mp hg with rfl | hg
  · by_cases hfirst : f.position = 0
    · -- The call has just made its object, and that is a new one.
      obtain ⟨name, hat⟩ := (h.ready.arranged.layout h.calls_eq).constructs hobject
      have hinstruction := h.instruction
      rw [hfirst] at hinstruction
      cases hinstruction.unique hat
      obtain ⟨_, hmidway, _⟩ := h.ready.arranged
      have hlt : f.base < m1.stack.size := hmidway.base_lt _ _ h.calls_eq
      have hnew : m'.stack[f.base]? = some (.object o) := hslot
      rw [hperforms.object.2, Array.getElem?_setIfInBounds_self_of_lt hlt] at hnew
      cases hnew
      exact absurd ho (Nat.lt_irrefl _)
    · exact hbefore f (h.calls_eq ▸ mem_cons_self) (absurd · hret) hobject hfirst hslot
  · exact hbefore g (h.calls_eq ▸ mem_cons_of_mem _ hg) (absurd · hret) hobject hposition hslot

/-! ### Objects that have their form -/

/-- The object is there, and no call under way has made it. -/
structure Machine.Formed (m : Machine) (o : ObjectId) : Prop where
  lt_size : o < m.objects.size
  unbuilt : ∀ g ∈ m.calls, ¬ g.Builds m.stack o

namespace Machine.Formed

theorem makesNone (h : m.Formed o) (hnone : m.MakesNone m') : m'.Formed o := by
  refine ⟨hnone.objects_eq ▸ h.lt_size, fun g hg hbuilds => ?_⟩
  obtain ⟨hg', hbuilds'⟩ := hnone.builds g hg o hbuilds
  exact h.unbuilt g hg' hbuilds'

theorem turn (h : m.Formed o) (hrunning : m.Running past L a) (hturn : Session.Turn m (.ok () m')) :
    m'.Formed o ∧ m'.objects.form? o = m.objects.form? o := by
  obtain ⟨m1, f, rest, i, hfetches, hperforms⟩ := hturn.fetches hrunning
  have hnone := hrunning.makesNone hfetches.started
  have hstarted := h.makesNone hnone
  refine ⟨⟨Nat.lt_of_lt_of_le hstarted.lt_size hperforms.objects_size_le, fun g hg hbuilds => ?_⟩, ?_⟩
  · obtain ⟨g', hg', hbuilds', _⟩ := hfetches.builds_before hperforms hstarted.lt_size hg hbuilds
    exact hstarted.unbuilt g' hg' hbuilds'
  · rw [← hnone.objects_eq]
    refine (hfetches.form?_eq hperforms hstarted.lt_size).resolve_right fun ⟨_, hbuilds⟩ => ?_
    exact hstarted.unbuilt f (hfetches.calls_eq ▸ mem_cons_self) hbuilds

end Machine.Formed

/-! ### Turns that end a run -/

theorem Machine.Running.step_objects (h : m.Running past L a) : step.Gives m (fun _ _ => True)
      fun stop m' => (∀ v, stop ≠ .finished v) → m'.objects = m.objects ∧ stop.Needed m' := by
  refine gives_step (((blind_objects.startProgram m).and (gives_startProgram h)).mono (fun _ m1 ⟨heq, hready⟩ => ?_)
    fun _ _ hstop _ => hstop.1)
  obtain ⟨f, rest, i, _, hback, hat⟩ := hready.exists_at
  refine ⟨f, i, hback, hat, fun events => ?_⟩
  refine (blind_objects.execute_stop fun _ _ => rfl).mono (fun _ _ _ => trivial) fun stop m' hstop hne => ?_
  obtain ⟨heq', hneeded⟩ := hstop hne
  exact ⟨Eq.trans heq' heq, hneeded⟩

theorem Session.Turn.objects_eq_of_error {stop : Stop} (hturn : Turn m (.error stop m')) (h : m.Running past L a) :
    m'.objects = m.objects := by
  by_cases hfinished : ∃ v, stop = .finished v
  · obtain ⟨v, rfl⟩ := hfinished
    obtain ⟨m1, f, hfetches, _, hobjects, _⟩ := hturn.finishes h
    exact hobjects.trans (h.makesNone hfetches.started).objects_eq
  have hne : ∀ v, stop ≠ .finished v := fun v heq => hfinished ⟨v, heq⟩
  cases hturn with
  | step hstep _ => exact (h.step_objects.error hstep hne).1
  | @answer _ m1 output _ _ hstep haction hresult =>
    obtain ⟨heq, hneeded⟩ := h.step_objects.error hstep fun _ => nofun
    exact ((blind_objects.answer haction hneeded output).error hresult).1.trans heq

namespace Session

variable {s s' : Session}

/-- From one point of a session to the next no object is made or changed, but in a turn after which the run goes
on. -/
theorem Reached.makesNone_or_turn (h : s.Reached) (hnext : Next s s') : s.machine.MakesNone s'.machine ∨
      ∃ m', s.activity ≠ .idle ∧ Turn s.machine (.ok () m') ∧ s' = ⟨s.activity, m'⟩ := by
  have horderly := h.orderly .some
  have hreached' : s'.Reached := h.leads (.single hnext)
  have hcalls : ∀ {s : Session}, s.Reached → s.activity = .idle → s.machine.calls = [] := by
    intro s h ha
    rw [calls, ((h.orderly .some).idle ha).frames_eq]
    rfl
  -- A run begins with calls that have not made anything, and there are none when it is over.
  have hstart : s.activity = .idle → s.machine.Deepens s'.machine → s'.machine.objects = s.machine.objects →
      s.machine.MakesNone s'.machine := by
    rintro ha ⟨entered, hentered, hposition⟩ hobjects
    rw [hcalls h ha, append_nil] at hentered
    exact .of_position hobjects (hentered ▸ hposition)
  have hover : s'.activity = .idle → s'.machine.objects = s.machine.objects → s.machine.MakesNone s'.machine := by
    intro ha hobjects
    exact .of_position hobjects (by rw [hcalls hreached' ha]; simp)
  cases hnext with
  | script hcompiled henter =>
    refine .inl (hstart rfl (enters_enter henter).calls ?_)
    cases henter
    rfl
  | construction hload hresult hconstruction =>
    have hobjects := (blind_objects.construction _ _).ok hconstruction
    exact .inl (hstart rfl ((shortsighted_enters.construction _ _).ok hconstruction).calls hobjects)
  | notStarted hload hresult hconstruction =>
    have hobjects := ((blind_objects.construction _ _).error hconstruction).1
    exact .inl (hover rfl hobjects)
  | notLoaded => exact .inl (hover rfl rfl)
  | native => exact .inl (hover rfl rfl)
  | turn ha hturn => exact .inr ⟨_, ha, hturn, rfl⟩
  | finish ha hturn => exact .inl (hover rfl (hturn.objects_eq_of_error (horderly.running ha)))
  | fault ha hturn => exact .inl (hover rfl (hturn.objects_eq_of_error (horderly.running ha)))
  | shown output events => exact .inl ⟨rfl, fun g hg _ hbuilds => ⟨hg, hbuilds⟩⟩

theorem Leads.form?_eq (h : s.Leads s') (hs : s.Reached) (hformed : s.machine.Formed o) :
    s'.machine.Formed o ∧ s'.machine.objects.form? o = s.machine.objects.form? o := by
  induction h with
  | refl => exact ⟨hformed, rfl⟩
  | @tail s1 s2 hleads hnext ih =>
    obtain ⟨hformed1, heq1⟩ := ih
    have hreached : s1.Reached := hs.leads hleads
    rw [← heq1]
    rcases hreached.makesNone_or_turn hnext with hnone | ⟨m', ha, hturn, rfl⟩
    · exact ⟨hformed1.makesNone hnone, by rw [hnone.objects_eq]⟩
    · exact hformed1.turn ((hreached.orderly .some).running ha) hturn

end Session

/-! ### Objects that get their form -/

theorem ObjectUnit.Codes.loop_notMem {unit : ObjectUnit} {path : String} {code : UnitCode}
    (h : unit.Codes path code r) (distance : Nat) : .loop distance ∉ code.instructions := by
  intro hmem
  obtain ⟨name, parents, hhead, _, hparents⟩ := h.head
  simp only [UnitCode.instructions, hhead, mem_append, mem_cons, mem_flatten, not_mem_nil,
    or_false, reduceCtorEq, false_or] at hmem
  rcases hmem with ⟨part, hpart, hmem⟩ | ⟨part, hpart, hmem⟩
  · obtain ⟨k, hk, rfl⟩ := getElem_of_mem hpart
    obtain ⟨index, heq, _⟩ := hparents.get (hparents.length_eq ▸ hk) hk
    rw [get_eq_getElem] at heq
    simp [heq] at hmem
  · obtain ⟨k, hk, rfl⟩ := getElem_of_mem hpart
    obtain ⟨member, _, hcodes⟩ := h.part (List.getElem?_eq_getElem hk)
    obtain ⟨initial, d, heq, hcontained, name, hd⟩ := hcodes.exists_declaration
    rw [heq] at hmem
    rcases mem_append.mp hmem with hmem | hmem
    · obtain ⟨front, back, rfl⟩ := append_of_mem hmem
      cases hcontained.of_split.1
    · rcases hd with rfl | rfl <;> simp at hmem

theorem Routine.lt_of_continues (h : ∃ path source, compileObject path source = .ok r)
    {position target : Nat} (hat : r.code.At position i) (hcontinues : i.Continues (position + i.size) target) :
    position < target := by
  obtain ⟨path, source, hr⟩ := h
  obtain ⟨kinds, unit, hscan, hderives⟩ := derives_of_compileObject hr
  obtain ⟨code, _, hcodes⟩ := codes_of_compileObject hr hscan hderives
  have hpos := i.size_pos
  rcases hcontinues with hnear | hfar
  · rw [Instruction.near?_eq hnear]
    omega
  · cases i with
    | jump distance | jumpIfFalse distance =>
      cases hfar
      omega
    | loop distance =>
      obtain ⟨front, back, hsplit, _⟩ := (hcodes.lists.at_iff _ _).mp hat
      exact absurd (hsplit ▸ by simp) (hcodes.loop_notMem distance)
    | _ => cases hfar

/-- The call that has made the object is under way, above calls that wait for it. -/
structure Machine.Forms (c : Closure) (base : Nat) (below : List Frame) (o : ObjectId) (m : Machine) : Prop where
  calls : ∃ inner position, m.calls = inner ++ ⟨c, position, base⟩ :: below ∧ position ≠ 0
  unit : ∃ path source, compileObject path source = .ok c.routine
  slot : m.stack[base]? = some (.object o)
  lt_size : o < m.objects.size

namespace Machine.Forms

theorem kind_eq (h : Forms c base below o m) : c.routine.kind = .object := by
  obtain ⟨path, source, hcompiled⟩ := h.unit
  exact (isUnit_of_compileObject hcompiled).kind_eq

theorem turn (h : Forms c base below o m) (hrunning : m.Running past L a) (hrears : m.Rears m.works)
    (hturn : Session.Turn m (.ok () m')) : Forms c base below o m' ∨ m'.calls = below ∧ m'.Formed o := by
  obtain ⟨m1, f, rest, i, hfetches, hperforms⟩ := hturn.fetches hrunning
  obtain ⟨inner, position, hcalls, hposition⟩ := h.calls
  obtain ⟨inner', hcalls', _, hobjects, hbase⟩ := hrunning.start_above hfetches.started hcalls
  have hslot : m1.stack[base]? = some (.object o) := hbase.trans h.slot
  have hsize : o < m1.objects.size := hobjects ▸ h.lt_size
  have hsize' : o < m'.objects.size := Nat.lt_of_lt_of_le hsize hperforms.objects_size_le
  have hmem : ⟨c, position, base⟩ ∈ m1.calls := by
    rw [hcalls']
    simp
  have hkept : (i = .ret → ⟨c, position, base⟩ ∈ rest) → m'.stack[base]? = some (.object o) := fun hstays =>
    (hfetches.object_eq hperforms hmem hstays h.kind_eq hposition).trans hslot
  rcases hfetches.calls_cases hperforms hcalls' with ⟨_, hrest, inner'', hcalls''⟩ |
    ⟨rfl, rfl, rfl, ⟨rfl, hcalls''⟩ | ⟨hret, entered, target, hcalls'', hcontinues⟩⟩
  · exact .inl ⟨⟨inner'', position, hcalls'', hposition⟩, h.unit, hkept fun _ => hrest, hsize'⟩
  · refine .inr ⟨hcalls'', hsize', fun g hg hbuilds => ?_⟩
    -- A call below would have made the object before, and the calls below have made older ones.
    obtain ⟨g', _, hbuilds', hrest⟩ := hfetches.builds_before hperforms hsize hg hbuilds
    have hordered := ((hrears.starts hrunning).ok hfetches.started).calls.pairwise
    rw [hcalls'] at hordered
    have hlt := (pairwise_cons.mp hordered).1 g' (hrest rfl) o o ⟨h.kind_eq, hposition, hslot⟩ hbuilds'
    exact Nat.lt_irrefl o hlt
  · refine .inl ⟨⟨entered, target, hcalls'', ?_⟩, h.unit, hkept (absurd · hret), hsize'⟩
    exact Nat.ne_of_gt (Nat.zero_lt_of_lt (Routine.lt_of_continues h.unit hfetches.instruction hcontinues))

theorem form?_eq_or (h : Forms c base below o m) (hrunning : m.Running past L a) (hrears : m.Rears m.works)
    (hturn : Session.Turn m (.ok () m')) : m'.objects.form? o = m.objects.form? o ∨
      ∃ position i, m.calls = ⟨c, position, base⟩ :: below ∧ c.routine.code.At position i ∧ i.declares = true := by
  obtain ⟨m1, f, rest, i, hfetches, hperforms⟩ := hturn.fetches hrunning
  obtain ⟨inner, position, hcalls, hposition⟩ := h.calls
  obtain ⟨inner', hcalls', hsame, hobjects, hbase⟩ := hrunning.start_above hfetches.started hcalls
  rw [← hobjects]
  refine (hfetches.form?_eq hperforms (hobjects ▸ h.lt_size)).imp_right fun ⟨hdeclares, hbuilds⟩ => ?_
  rcases hfetches.calls_cases hperforms hcalls' with ⟨_, hrest, _⟩ | ⟨rfl, rfl, rfl, _⟩
  · -- The innermost call would have made a newer object.
    have hordered := ((hrears.starts hrunning).ok hfetches.started).calls.pairwise
    rw [hfetches.calls_eq] at hordered
    have hlt := (pairwise_cons.mp hordered).1 _ hrest o o hbuilds ⟨h.kind_eq, hposition, hbase.trans h.slot⟩
    exact absurd hlt (Nat.lt_irrefl o)
  · obtain rfl := hsame rfl
    exact ⟨position, i, hfetches.calls_eq, hfetches.instruction, hdeclares⟩

end Machine.Forms

/-! ### Sessions -/

namespace Session

variable {s s' : Session}

/-- With its next turn the machine makes an object, in a call above others. -/
def Creates (m : Machine) (f : Frame) (below : List Frame) (o : ObjectId) (m' : Machine) : Prop :=
  ∃ m1 name, startProgram m = .ok () m1 ∧ m1.calls = f :: below ∧ f.code.At f.position (.object name) ∧
    o = m.objects.size ∧ Turn m (.ok () m')

/-- A session goes on as long as a run is under way and has more than so many calls. -/
def During (depth : Nat) : Session → Session → Prop :=
  Relation.ReflTransGen fun s s' => s.activity ≠ .idle ∧ depth < s.machine.frames.size ∧ Next s s'

theorem During.leads (h : During depth s s') : s.Leads s' :=
  Relation.ReflTransGen.mono (fun _ _ hnext => hnext.2.2) _ _ h

theorem During.of_proceeds (h : Proceeds depth m m') (ha : a ≠ .idle) (hdepth : depth < m'.frames.size) :
    During depth ⟨a, m⟩ ⟨a, m'⟩ := by
  induction h with
  | refl => exact .refl
  | turn _ hbefore hturn ih => exact (ih hbefore).tail ⟨ha, hbefore, .turn ha hturn⟩
  | shown output events _ ih => exact (ih hdepth).tail ⟨ha, hdepth, .shown output events⟩

theorem Creates.forms (h : Creates m f below o m') (hm : Reached ⟨a, m⟩) (ha : a ≠ .idle) :
    m'.Forms f.closure f.base below o ∧ ∃ name, m'.objects.form? o = some ⟨name, [], [], none⟩ := by
  obtain ⟨m1, name, hstart, hcalls, hat, rfl, hturn⟩ := h
  have hrunning : m.Running _ _ _ := (hm.orderly .some).running ha
  obtain ⟨m2, g, rest, i, hfetches, hperforms⟩ := hturn.fetches hrunning
  cases hstart.symm.trans hfetches.started
  obtain ⟨rfl, rfl⟩ := List.cons.inj (hfetches.calls_eq.symm.trans hcalls)
  cases hfetches.instruction.unique hat
  obtain ⟨hobjects, hstack⟩ := hperforms.object
  rw [(hrunning.makesNone hstart).objects_eq] at hobjects hstack
  obtain ⟨entered, target, hcalls', hcontinues, _⟩ := hperforms.advances hcalls nofun
  have hlt : g.base < m1.stack.size := by
    obtain ⟨_, hmidway, _⟩ := hfetches.ready.arranged
    exact hmidway.base_lt _ _ hcalls
  have hunit : ∃ path source, compileObject path source = .ok g.closure.routine := by
    have hinside : m1.Inside .whole := (StaysIn.startProgram Realm.lawful_whole hm.inLine.inside).ok hstart
    have hobject : g.IsObject := (hfetches.ready.arranged.allowed hcalls hat).values
    obtain ⟨path, _, _, _, source, hcompiled⟩ :=
      hinside.hasUnit (mem_calls.mp (hcalls ▸ mem_cons_self)) hobject
    exact ⟨path, source, hcompiled⟩
  refine ⟨⟨⟨entered, target, hcalls', ?_⟩, hunit, ?_, ?_⟩, g.code.nameAt name, ?_⟩
  · exact Nat.ne_of_gt (Nat.zero_lt_of_lt (Routine.lt_of_continues hunit hat hcontinues))
  · rw [hstack, Array.getElem?_setIfInBounds_self_of_lt hlt]
  · rw [hobjects, Array.size_push]
    exact Nat.lt_succ_self _
  · rw [Objects.form?, hobjects, Array.getElem?_push, if_pos rfl]
    rfl

theorem Reached.exists_makes (h : s.Reached) (ho : o < s.machine.objects.size) :
    ∃ a m f below m', Reached ⟨a, m⟩ ∧ a ≠ .idle ∧ Creates m f below o m' ∧ Leads ⟨a, m'⟩ s := by
  have hall : s.Reached ∧ ∀ o < s.machine.objects.size,
      ∃ a m f below m', Reached ⟨a, m⟩ ∧ a ≠ .idle ∧ Creates m f below o m' ∧ Leads ⟨a, m'⟩ s := by
    apply h.induction
    · exact fun settings source extension => ⟨⟨settings, source, extension, .refl⟩, nofun⟩
    rintro s s' ⟨hs, hmade⟩ hnext
    refine ⟨hs.leads (.single hnext), fun o ho => ?_⟩
    have hold : o < s.machine.objects.size →
        ∃ a m f below m', Reached ⟨a, m⟩ ∧ a ≠ .idle ∧ Creates m f below o m' ∧ Leads ⟨a, m'⟩ s' := by
      intro ho
      obtain ⟨a, m, f, below, m', hm, ha, hmakes, hleads⟩ := hmade o ho
      exact ⟨a, m, f, below, m', hm, ha, hmakes, hleads.tail hnext⟩
    rcases hs.makesNone_or_turn hnext with hnone | ⟨m', ha, hturn, rfl⟩
    · exact hold (hnone.objects_eq ▸ ho)
    have hrunning : s.machine.Running _ _ _ := (hs.orderly .some).running ha
    obtain ⟨m1, f, rest, i, hfetches, hperforms⟩ := hturn.fetches hrunning
    have hsize : m1.objects.size = s.machine.objects.size :=
      congrArg Array.size (hrunning.makesNone hfetches.started).objects_eq
    rcases hperforms.objects with ⟨heq, _⟩ | ⟨name, rfl, heq⟩ | ⟨_, _, _, heq⟩
    · rw [heq, hsize] at ho
      exact hold ho
    · rw [heq, Array.size_push, hsize] at ho
      rcases Nat.lt_or_eq_of_le (Nat.le_of_lt_succ ho) with ho | rfl
      · exact hold ho
      · exact ⟨_, _, f, rest, m', hs, ha, ⟨m1, name, hfetches.started, hfetches.calls_eq, hfetches.instruction, rfl,
          hturn⟩, .refl⟩
    · rw [heq, Array.size_modify, hsize] at ho
      exact hold ho
  exact hall.2 o ho

def Over (below : List Frame) (s : Session) : Prop := s.activity = .idle ∨ s.machine.frames.size ≤ below.length

/-- The call of an object is under way, or it is over and the object has its form. -/
theorem During.forms {s0 : Session} (h : During below.length s0 s) (hs0 : s0.Reached) (ha : s0.activity ≠ .idle)
    (hforms : s0.machine.Forms c base below o) : s.activity ≠ .idle ∧ s.machine.Forms c base below o ∨
      (s.activity = .idle ∨ s.machine.calls = below) ∧ s.machine.Formed o := by
  induction h with
  | refl => exact .inl ⟨ha, hforms⟩
  | @tail s1 s2 hduring hnext ih =>
    obtain ⟨hactive, hdepth, hnext⟩ := hnext
    have hreached : s1.Reached := hs0.leads (During.leads hduring)
    have hrunning := (hreached.orderly .some).running hactive
    obtain ⟨_, hunder⟩ := ih.resolve_right fun ⟨hover, _⟩ => by
      rcases hover with hidle | hcalls
      · exact hactive hidle
      · rw [← hcalls, calls, length_reverse, Array.length_toList] at hdepth
        exact Nat.lt_irrefl _ hdepth
    -- When the run is over there are no calls at all.
    have hended : ∀ stop m', Turn s1.machine (.error stop m') → s2.activity = .idle →
        s2.machine.objects = m'.objects → s2.machine.Formed o := by
      intro stop m' hturn hidle hobjects
      have hframes := (((hreached.leads (.single hnext)).orderly .some).idle hidle).frames_eq
      refine ⟨by rw [hobjects, hturn.objects_eq_of_error hrunning]; exact hunder.lt_size, fun g hg => ?_⟩
      rw [calls, hframes] at hg
      cases hg
    cases hnext with
    | script | construction | notStarted | notLoaded | native => exact absurd rfl hactive
    | turn _ hturn =>
      rcases hunder.turn hrunning (hreached.inLine.rears hactive) hturn with hforms' | ⟨hcalls, hformed⟩
      · exact .inl ⟨hactive, hforms'⟩
      · exact .inr ⟨.inr hcalls, hformed⟩
    | finish _ hturn => exact .inr ⟨.inl rfl, hended _ _ hturn rfl rfl⟩
    | fault _ hturn => exact .inr ⟨.inl rfl, hended _ _ hturn rfl rfl⟩
    | shown output events => exact .inl ⟨hactive, hunder.calls, hunder.unit, hunder.slot, hunder.lt_size⟩

/-- An object gets its form from the call that makes it, and keeps it. Each object of a session was made by some
call, with a name and nothing else. From one point to the next, its form stays as it is or the call executes a
declaration and is the innermost one. From the moment the call is over the form stays as it is for good. -/
theorem forms_closed : (∀ s : Session, s.Reached → ∀ o < s.machine.objects.size,
      ∃ a m f below m', Reached ⟨a, m⟩ ∧ a ≠ .idle ∧ Creates m f below o m' ∧ Leads ⟨a, m'⟩ s) ∧
    ∀ a m f below o m', Reached ⟨a, m⟩ → a ≠ .idle → Creates m f below o m' →
      (∃ name, m'.objects.form? o = some ⟨name, [], [], none⟩) ∧
      ∀ s, During below.length ⟨a, m'⟩ s →
        (s.Over below → (s.activity = .idle ∨ s.machine.calls = below) ∧
          ∀ s', s.Leads s' → s'.machine.objects.form? o = s.machine.objects.form? o) ∧
        (¬ s.Over below → (∃ inner position, s.machine.calls = inner ++ { f with position } :: below) ∧
          ∀ s', Next s s' → s'.machine.objects.form? o ≠ s.machine.objects.form? o →
            ∃ position i, s.machine.calls = { f with position } :: below ∧ f.code.At position i ∧
              i.declares = true) := by
  refine ⟨fun s hs o ho => hs.exists_makes ho, fun a m f below o m' hm ha hmakes => ?_⟩
  obtain ⟨hforms, hname⟩ := hmakes.forms hm ha
  have hm' : Reached ⟨a, m'⟩ := by
    obtain ⟨_, _, _, _, _, _, hturn⟩ := hmakes
    exact hm.leads (.single (.turn ha hturn))
  refine ⟨hname, fun s hduring => ?_⟩
  have hs : s.Reached := hm'.leads hduring.leads
  rcases hduring.forms hm' ha hforms with ⟨hactive, hunder⟩ | ⟨hended, hformed⟩
  · obtain ⟨inner, position, hcalls, _⟩ := hunder.calls
    have hdepth : below.length < s.machine.frames.size := by
      have hlength := congrArg List.length hcalls
      simp only [calls, length_reverse, Array.length_toList, length_append, length_cons] at hlength
      omega
    refine ⟨fun hover => absurd hover fun hover => hover.elim hactive (Nat.not_le_of_lt hdepth),
      fun _ => ⟨⟨inner, position, hcalls⟩, fun s' hnext hne => ?_⟩⟩
    rcases hs.makesNone_or_turn hnext with hnone | ⟨m'', _, hturn, rfl⟩
    · exact absurd (by rw [hnone.objects_eq]) hne
    · exact (hunder.form?_eq_or ((hs.orderly .some).running hactive) (hs.inLine.rears hactive) hturn).resolve_left hne
  · refine ⟨fun _ => ⟨hended, fun s' hleads => (hleads.form?_eq hs hformed).2⟩, fun hover => absurd ?_ hover⟩
    refine hended.imp_right fun hcalls => ?_
    rw [← hcalls, calls, length_reverse, Array.length_toList]

/-- The object of a unit that declares fields and a method is made, and the form it has when its construction is
over is there to stay. -/
theorem forms_closed_declaring :
    ∃ r m f m0 m' name, compileObject "/a" "int x=true,x;int f(){}" = .ok r ∧ Reached ⟨.construction, m⟩ ∧
      Creates m f [] 0 m0 ∧ m0.objects.form? 0 = some ⟨name, [], [], none⟩ ∧
      During 0 ⟨.construction, m0⟩ ⟨.idle, m'⟩ ∧
      ∀ s', Leads ⟨.idle, m'⟩ s' → s'.machine.objects.form? 0 = m'.objects.form? 0 := by
  have hactive : Activity.construction ≠ .idle := nofun
  obtain ⟨r, m, m0, m', v, m'', hr, hreached, hready, hcalls, hobjects, hturn, hproceeds, hframes, hend⟩ :=
    exists_declaring_run
  obtain ⟨name, hfirst⟩ := (hready.arranged.layout hcalls).constructs (isUnit_of_compileObject hr).kind_eq
  have hmakes : Creates m ⟨⟨1, r, #[]⟩, 0, 0⟩ [] 0 m0 :=
    ⟨m, name, hready.startProgram_eq, hcalls, hfirst, by rw [hobjects]; rfl, hturn⟩
  have hduring : During 0 ⟨.construction, m0⟩ ⟨.idle, m''⟩ :=
    (During.of_proceeds hproceeds hactive hframes).tail ⟨hactive, hframes, .finish hactive hend⟩
  obtain ⟨hblank, hforms⟩ := forms_closed.2 _ _ _ _ _ _ hreached hactive hmakes
  obtain ⟨path, hpath⟩ := hblank
  obtain ⟨_, hkept⟩ := (hforms _ hduring).1 (.inl rfl)
  exact ⟨r, m, _, m0, m'', path, hr, hreached, hmakes, hpath, hduring, hkept⟩

end Session

end Mudscript
