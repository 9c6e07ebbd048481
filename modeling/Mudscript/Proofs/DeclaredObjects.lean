import Mudscript.Proofs.Members
import Mudscript.Proofs.Transient

/-!
# Objects as they are declared

What the call of an object unit does to its object, turn by turn, and what it returns. Declarations change
the object in slot 0 of the call, since nothing else is below the value that is declared. Other units that
run in the meantime have objects of their own, so all that can happen to the object otherwise is that a
field it has is set.
-/

namespace Mudscript

open Machine Exec List

variable {m0 : Machine} {v : Value}

variable {past : Moment} {L : Layouts} {a : Activity} {m m' m1 : Machine} {f g : Frame} {rest : List Frame}
  {i : Instruction} {o : ObjectId} {change : Object.Change}

/-! ### What is changed -/

theorem Machine.Changes.builds (h : m.Changes f i o change) (hready : m.Ready past L a)
    (hcalls : m.calls = f :: rest) (hat : f.code.At f.position i) (hassigned : ∀ x v, change ≠ .assigned x v) :
    f.Builds m.stack o := by
  have hallowed := (hready.arranged.allowed hcalls hat).values
  have hsize := hready.arranged.size_eq hcalls
  have hbuilds : f.IsObject → (L.shapeOf f).height = 2 → m.stack.pop.back?.getD .nil = .object o →
      (∀ name, i ≠ .object name) → f.Builds m.stack o := by
    intro hobject hheight htop hne
    obtain ⟨o', ho'⟩ := hready.builds hcalls hat hobject hne
    rw [Array.back?_eq_getElem?, Array.getElem?_pop, Array.size_pop, if_pos (by omega),
      show m.stack.size - 1 - 1 = f.base by omega, ho'.2.2] at htop
    cases htop
    exact ho'
  cases h with
  | field ho => exact hbuilds hallowed.1 hallowed.2.2 ho fun _ => nofun
  | method ho => exact hbuilds hallowed.1 hallowed.2.2.1 ho fun _ => nofun
  | parent ho => exact hbuilds hallowed.1 hallowed.2.2.1 ho fun _ => nofun
  | assigned => exact absurd rfl (hassigned _ _)

theorem Machine.Changes.isSome {x : String} {object : Object} (h : m.Changes f i o (.assigned x v))
    (ho : m.objects[o]? = some object) : (object.fields.get? x).isSome := by
  cases h with
  | assigned _ hholder =>
    have hany := List.find?_some hholder
    rw [ho] at hany
    exact hany

theorem Machine.Alters.entry {event?} (h : m.Alters o event?)
    (hfetches : m.Fetches past L a m1 f rest i) (g : Frame) (change : Object.Change) :
    event? = some (g, change) ↔ g = f ∧ m1.Changes f i o change := by
  obtain ⟨m2, f', j, hstart, hback, hat, hentry⟩ := h
  cases hfetches.started.symm.trans hstart
  cases hfetches.back.symm.trans hback
  cases hfetches.instruction.unique hat
  exact hentry g change

def Instruction.Leaves (constants : Array Constant) : Instruction → Value → Prop
  | .pushNil, v => v = .nil
  | .closure index _, v => ∃ c, v = .closure c ∧ constants[index]? = some (.routine c.routine)
  | _, _ => False

def Instruction.isPlain : Instruction → Bool
  | .pushNil | .closure _ _ => true
  | _ => false

theorem Machine.Performs.leaves (h : m.Performs f i (.ok () m')) (hi : i.isPlain = true) :
    ∃ v, m'.stack.back? = some v ∧ i.Leaves f.code.constants v := by
  apply h.gives_alone
  intro events
  cases i with
  | pushNil => exact ⟨.nil, Array.back?_push, rfl⟩
  | closure index captures =>
    refine gives_makeClosure (fun _ _ => nofun) fun q hq => ?_
    refine (gives_captureCells_cells f captures).mono (fun _ _ ⟨_, heq⟩ => ?_) fun _ _ hstop => hstop.elim
    subst heq
    exact ⟨_, Array.back?_push, _, rfl, Code.constants_of_routineAt? hq⟩
  | _ => cases hi

theorem Machine.Performs.replay {history : Object.History} {event? : Option (Frame × Object.Change)} {first : Object}
    (h : m.Performs f i (.ok () m')) (ho : m.objects[o]? = some (history.replay first))
    (hentry : ∀ g change, event? = some (g, change) ↔ g = f ∧ m.Changes f i o change) :
    m'.objects[o]? = some (Object.History.replay (history ++ event?.toList) first) := by
  obtain ⟨change?, hchange, heq⟩ := h.alters (Array.getElem?_eq_some_iff.mp ho).1
  rw [heq, ho, Option.map_some]
  congr 1
  cases change? with
  | none =>
    have hnone : event? = none := by
      cases hentry' : event? with
      | none => rfl
      | some entry => exact absurd ((hchange _).mpr ((hentry _ _).mp hentry').2) nofun
    simp [hnone]
  | some change =>
    rw [(hentry f change).mpr ⟨rfl, (hchange change).mp rfl⟩]
    rw [Option.toList_some, Object.History.replay_concat]
    rfl

/-! ### Construction under way -/

/-- If the code of a member is a constant or a function, that is on top of the stack when the call comes to
the declaration. -/
def UnitCode.Primed (code : UnitCode) (c : Closure) (k position : Nat) (inner : List Frame) (m : Machine) : Prop :=
  ∀ i d, code.members[k]? = some [i, d] → i.isPlain = true → position = code.start k + i.size →
    inner = [] ∧ ∃ v, m.stack.back? = some v ∧ i.Leaves c.routine.code.constants v

/-- The call of a unit has made its object and has declared so many members of it. -/
structure ObjectUnit.Underway (unit : ObjectUnit) (path : String) (code : UnitCode) (c : Closure) (base : Nat)
    (below : List Frame) (o : ObjectId) (k position : Nat) (inner : List Frame) (history : Object.History)
    (m : Machine) : Prop where
  calls_eq : m.calls = inner ++ ⟨c, position, base⟩ :: below
  position_ne : position ≠ 0
  reaches : code.Reaches k position
  primed : code.Primed c k position inner m
  slot : m.stack[base]? = some (.object o)
  object : m.objects[o]? = some (history.replay { name := path })
  declares : unit.Declares code c base k history (history.replay { name := path })
  orphan : unit.parents = [] ∨ position < 8 → (history.replay { name := path }).parent = none
  parent : unit.parents ≠ [] → 8 ≤ position → (history.replay { name := path }).parent ≠ none
  halts : 2 ≤ unit.parents.length → position ≤ 12

/-- A turn does nothing to an object but set a field it has. -/
def Object.Harmless (object : Object) (event? : Option (Frame × Object.Change)) : Prop :=
  ∀ g change, event? = some (g, change) → ∃ x v, change = .assigned x v ∧ (object.fields.get? x).isSome

namespace ObjectUnit.Underway

variable {unit : ObjectUnit} {path : String} {code : UnitCode} {c : Closure} {base k position position' : Nat}
  {below inner inner' : List Frame} {history : Object.History} {event? : Option (Frame × Object.Change)}

theorem mem (h : unit.Underway path code c base below o k position inner history m) :
    ⟨c, position, base⟩ ∈ m.calls := by
  rw [h.calls_eq]
  simp

theorem start (h : unit.Underway path code c base below o k position inner history m) (hrunning : m.Running past L a)
    (hstart : startProgram m = .ok () m1) :
    ∃ inner', unit.Underway path code c base below o k position inner' history m1 ∧ (inner' = [] → m1 = m) := by
  obtain ⟨inner', hcalls, hsame, hobjects, hbase⟩ := hrunning.start_above hstart h.calls_eq
  refine ⟨inner', { h with
    calls_eq := hcalls, primed := fun i d hpart hplain hposition => ?_, slot := hbase.trans h.slot
    object := by rw [hobjects]; exact h.object }, hsame⟩
  obtain ⟨hinner, v, hv, hleaves⟩ := h.primed i d hpart hplain hposition
  rcases hrunning.started hstart with ⟨_, rfl⟩ | ⟨p, hback, _, _⟩
  · exact ⟨append_cancel_right (hcalls.symm.trans h.calls_eq) |>.trans hinner, v, hv, hleaves⟩
  · -- A program is not among the values that are known to be there.
    cases hback.symm.trans hv
    cases i with
    | pushNil => cases hleaves
    | closure _ _ =>
      obtain ⟨_, heq, _⟩ := hleaves
      cases heq
    | _ => cases hplain

theorem goes (h : unit.Underway path code c base below o k position inner history m)
    (hobject' : m'.objects[o]? = some (Object.History.replay (history ++ event?.toList) { name := path }))
    (hentry : (history.replay { name := path }).Harmless event?) (hslot' : m'.stack[base]? = some (.object o))
    (hcalls' : m'.calls = inner' ++ ⟨c, position', base⟩ :: below) (hle : position ≤ position')
    (hreaches' : code.Reaches k position') (hprimed' : code.Primed c k position' inner' m')
    (hparents : unit.parents ≠ [] → (position < 8 ↔ position' < 8))
    (hhalts : 2 ≤ unit.parents.length → position' ≤ 12) :
    unit.Underway path code c base below o k position' inner' (history ++ event?.toList) m' := by
  obtain ⟨hdeclares', hparent'⟩ : unit.Declares code c base k (history ++ event?.toList)
      (Object.History.replay (history ++ event?.toList) { name := path }) ∧
      (Object.History.replay (history ++ event?.toList) { name := path }).parent
        = (history.replay { name := path }).parent := by
    cases hsome : event? with
    | none =>
      rw [Option.toList_none, append_nil]
      exact ⟨h.declares, rfl⟩
    | some entry =>
      obtain ⟨g, change⟩ := entry
      obtain ⟨x, v, rfl, hx⟩ := hentry g change hsome
      rw [Option.toList_some, Object.History.replay_concat]
      exact ⟨h.declares.assigned hx, rfl⟩
  refine ⟨hcalls', ?_, hreaches', hprimed', hslot', hobject', hdeclares', fun hfirst => ?_, fun hne hle' => ?_, hhalts⟩
  · have hposition := h.position_ne
    omega
  · rw [hparent']
    refine h.orphan (hfirst.imp_right fun hlt => ?_)
    omega
  · rw [hparent']
    refine h.parent hne ?_
    have hiff := hparents hne
    omega

theorem above {d : Frame} (h : unit.Underway path code c base below o k position (d :: inner) history m1)
    (hfetches : m.Fetches past L a m1 f rest i) (hrears : m1.Rears m1.works) (hobject : c.routine.kind = .object)
    (hperforms : m1.Performs f i (.ok () m'))
    (hentry : ∀ g change, event? = some (g, change) ↔ g = f ∧ m1.Changes f i o change) :
    ∃ inner', unit.Underway path code c base below o k position inner' (history ++ event?.toList) m' := by
  obtain ⟨rfl, rfl⟩ := List.cons.inj (hfetches.calls_eq.symm.trans h.calls_eq)
  have hmem : ⟨c, position, base⟩ ∈ inner ++ ⟨c, position, base⟩ :: below := by simp
  have hslot' := (hfetches.object_eq hperforms h.mem (fun _ => hmem) hobject h.position_ne).trans h.slot
  have hharmless : (history.replay { name := path }).Harmless event? := by
    intro g change hsome
    obtain ⟨rfl, hchange⟩ := (hentry g change).mp hsome
    by_contra hdeclares
    -- The call makes another object, which is younger.
    have hbuilds := hchange.builds hfetches.ready hfetches.calls_eq hfetches.instruction (by
      rintro x v rfl
      exact hdeclares ⟨x, v, rfl, hchange.isSome h.object⟩)
    obtain ⟨hf, _⟩ := hfetches.calls_eq ▸ hrears.calls
    have hlt := (hf o hbuilds).2.2 ⟨c, position, base⟩ hmem o ⟨hobject, h.position_ne, h.slot⟩
    exact Nat.lt_irrefl _ hlt
  have hnotPrimed : ∀ inner' (m' : Machine), code.Primed c k position inner' m' := by
    intro inner' m' i d hpart hplain hposition
    cases (h.primed i d hpart hplain hposition).1
  rcases hfetches.calls_cases hperforms h.calls_eq with ⟨_, _, inner', hcalls'⟩ | ⟨hnil, _⟩
  · exact ⟨inner', h.goes (hperforms.replay h.object hentry) hharmless hslot' hcalls' (Nat.le_refl _) h.reaches
      (hnotPrimed _ _) (fun _ => Iff.rfl) h.halts⟩
  · cases hnil

theorem declaration (h : unit.Underway path code c base below o k position [] history m1)
    (hcodes : unit.Codes path code c.routine) {initial}
    (hpart : code.members[k]? = some (initial ++ [i])) (hposition : position = code.start k + Code.length initial)
    (hchange : m1.Changes ⟨c, position, base⟩ i o change) :
    unit.Declares code c base (k + 1) (history ++ [(⟨c, position, base⟩, change)])
      (change.apply (history.replay { name := path })) ∧
      (change.apply (history.replay { name := path })).parent = (history.replay { name := path }).parent := by
  have hname : ∀ {name : Nat} {x : String}, c.routine.code.constants[name]? = some (.text x) →
      (⟨c, position, base⟩ : Frame).code.nameAt name = x := by
    intro name x hx
    show c.routine.code.nameAt name = x
    rw [Code.nameAt, hx]
  obtain ⟨member, hmember, hmember'⟩ := hcodes.part hpart
  cases member with
  | field x value =>
    obtain ⟨initial', name, hsplit, hx, _, hnone⟩ := hmember'
    obtain ⟨rfl, hi⟩ := append_inj' hsplit rfl
    cases hi
    cases hchange with
    | field _ =>
      rw [hname hx]
      refine ⟨?_, rfl⟩
      subst hposition
      refine h.declares.declareField hmember hpart fun hvalue => ?_
      have hinitial := hnone hvalue
      subst hinitial
      obtain ⟨_, v, hv, rfl⟩ := h.primed .pushNil _ hpart rfl rfl
      rw [hv]
      rfl
  | method x ps body =>
    obtain ⟨index, captures, name, q, hsplit, hx, hq, hkind, hq', harity⟩ := hmember'
    obtain ⟨rfl, hi⟩ := append_inj'
        (show initial ++ [i] = [.closure index captures] ++ [.method name] from hsplit) rfl
    cases hi
    cases hchange with
    | @method _ _ method _ hmethod =>
      rw [hname hx]
      refine ⟨?_, rfl⟩
      subst hposition
      obtain ⟨_, v, hv, method', rfl, hmethod'⟩ := h.primed _ _ hpart rfl rfl
      rw [hv] at hmethod
      cases hmethod
      cases hq.symm.trans hmethod'
      exact h.declares.declareMethod hmember hpart hmethod' hkind hq' harity

section

variable (hcodes : unit.Codes path code c.routine) (hobject : c.routine.kind = .object)
  (hfetches : m.Fetches past L a m1 ⟨c, position, base⟩ below i)
  (hperforms : m1.Performs ⟨c, position, base⟩ i (.ok () m'))
  (hentry : ∀ g change, event? = some (g, change) ↔ g = ⟨c, position, base⟩ ∧ m1.Changes ⟨c, position, base⟩ i o change)

include hcodes hobject hfetches hperforms hentry

theorem declare (h : unit.Underway path code c base below o k position [] history m1)
    {initial} (hpart : code.members[k]? = some (initial ++ [i]))
    (hposition : position = code.start k + Code.length initial) (hi : ∃ name, i = .field name ∨ i = .method name) :
    ∃ inner', unit.Underway path code c base below o (k + 1) (code.start (k + 1)) inner'
      (history ++ event?.toList) m' := by
  obtain ⟨hret, hchanges, hmakes, hassigns, hnear⟩ : i ≠ .ret ∧ i.changesObjects = true ∧ (∀ n, i ≠ .object n) ∧
      (∀ n, i ≠ .setProperty n) ∧ ∀ next, i.near? next = some next ∧ i.far? next = none := by
    obtain ⟨name, rfl | rfl⟩ := hi <;> simp [Instruction.changesObjects, Instruction.near?, Instruction.far?]
  -- The object that is changed is the one of the call.
  obtain ⟨o', change, hchange⟩ := hperforms.exists_change hchanges hmakes
  have hbuilds := hchange.builds hfetches.ready hfetches.calls_eq hfetches.instruction (by
    rintro x v rfl
    cases hchange with
    | assigned => exact hassigns _ rfl)
  cases hbuilds.2.2.symm.trans h.slot
  obtain rfl : event? = some (⟨c, position, base⟩, change) := (hentry _ _).mpr ⟨rfl, hchange⟩
  have hobject' := hperforms.replay h.object hentry
  rw [Option.toList_some] at hobject' ⊢
  obtain ⟨hdeclares', hparent'⟩ := h.declaration hcodes hpart hposition hchange
  rw [← Object.History.replay_concat history (⟨c, position, base⟩, change)] at hdeclares' hparent'
  obtain ⟨entered, target, hcalls', hcontinues, _⟩ := hperforms.advances hfetches.calls_eq hret
  have htarget : target = code.start (k + 1) := by
    rw [UnitCode.start_succ hpart, Code.length_append, Code.length_cons, Code.length_nil]
    rcases hcontinues with hgo | hjump
    · rw [(hnear _).1] at hgo
      cases hgo
      show position + i.size = _
      omega
    · rw [(hnear _).2] at hjump
      cases hjump
  subst htarget
  have hstart := hcodes.start_zero
  have hle : code.start 0 ≤ position := by
    have := code.start_mono (Nat.zero_le k)
    omega
  have hlt : position < code.start (k + 1) := by
    have := i.size_pos
    rw [UnitCode.start_succ hpart, Code.length_append, Code.length_cons, Code.length_nil]
    omega
  have hslot' := (hfetches.object_eq hperforms h.mem (absurd · hret) hobject h.position_ne).trans h.slot
  have hk : k + 1 ≤ code.members.length := (List.getElem?_eq_some_iff.mp hpart).1
  refine ⟨entered, hcalls', by omega, hcodes.reaches_start hk, ?_, hslot', hobject', hdeclares', ?_, ?_, ?_⟩
  · intro j d _ _ hstart'
    have := j.size_pos
    omega
  · rw [hparent']
    exact fun hfirst => h.orphan (hfirst.imp_right fun hlt' => by omega)
  · rw [hparent']
    intro hne' _
    have := length_pos_of_ne_nil hne'
    exact h.parent hne' (by omega)
  · intro htwo
    have := h.halts htwo
    omega

theorem initial (h : unit.Underway path code c base below o k position [] history m1)
    {initial d} (hpart : code.members[k]? = some (initial ++ [d]))
    (hcontained : Contained initial) (hle : code.start k ≤ position)
    (hlt : position < code.start k + Code.length initial) :
    ∃ position' inner', unit.Underway path code c base below o k position' inner' (history ++ event?.toList) m' := by
  have hholds := (UnitCode.holds_part hcodes.lists hpart).left
  have hat : c.routine.code.At position i := hfetches.instruction
  have hret : i ≠ .ret := by
    rintro rfl
    obtain ⟨front, back, rfl, _⟩ := hholds.exists_split hat hle hlt
    cases hcontained.of_split.1
  obtain ⟨entered, target, hcalls', hcontinues, _, hentered⟩ := hperforms.advances hfetches.calls_eq hret
  obtain ⟨hevaluates, hnext, hend⟩ := hcontained.continues hholds hat hle hlt hcontinues
  have hslot' := (hfetches.object_eq hperforms h.mem (absurd · hret) hobject h.position_ne).trans h.slot
  have hharmless : (history.replay { name := path }).Harmless event? := by
    intro g change hsome
    obtain ⟨rfl, hchange⟩ := (hentry g change).mp hsome
    cases hchange with
    | field | method | parent => cases hevaluates
    | assigned ho hholder => exact ⟨_, _, rfl, (Machine.Changes.assigned ho hholder).isSome h.object⟩
  have hstart := hcodes.start_zero
  have hmono := code.start_mono (Nat.zero_le k)
  refine ⟨target, entered, h.goes (hperforms.replay h.object hentry) hharmless hslot' hcalls' (by omega) ?_ ?_ ?_ ?_⟩
  · refine ⟨h.reaches.le, fun hk => by omega, fun hk => ?_⟩
    have hpos := d.size_pos
    rw [UnitCode.start_succ hpart, Code.length_append, Code.length_cons]
    omega
  · -- A single instruction that leaves a value of which something is known.
    intro j d' hpart' hplain htarget
    obtain ⟨rfl, _⟩ := append_inj' (show initial ++ [d] = [j] ++ [d'] from
      Option.some.inj (hpart.symm.trans hpart')) rfl
    obtain ⟨front, back, hsplit, hfront⟩ := hholds.exists_split hat hle hlt
    cases front with
    | cons _ front => simp at hsplit
    | nil =>
      cases hsplit
      obtain ⟨v, hv, hleaves⟩ := hperforms.leaves hplain
      refine ⟨hentered ?_, v, hv, hleaves⟩
      cases i with
      | pushNil | closure _ _ => rfl
      | _ => cases hplain
  · intro hne
    have := length_pos_of_ne_nil hne
    omega
  · intro htwo
    have := h.halts htwo
    omega

theorem head (h : unit.Underway path code c base below o 0 position [] history m1) (hlt : position < code.start 0) :
    ∃ position' inner', unit.Underway path code c base below o 0 position' inner' (history ++ event?.toList) m' := by
  have hstart := hcodes.start_zero
  have hat : c.routine.code.At position i := hfetches.instruction
  obtain ⟨b, hb, hplace⟩ := hcodes.head_place hat h.position_ne hlt
  have hhalts := h.halts
  have hret : i ≠ .ret := by
    rintro rfl
    rcases hplace with ⟨⟨_, hi⟩, _⟩ | ⟨hi, _⟩ | ⟨hi, _⟩ <;> cases hi
  have hslot' := (hfetches.object_eq hperforms h.mem (absurd · hret) hobject h.position_ne).trans h.slot
  have hobject' := hperforms.replay h.object hentry
  obtain ⟨entered, target, hcalls', hcontinues, _⟩ := hperforms.advances hfetches.calls_eq hret
  have hne : unit.parents ≠ [] := ne_nil_of_length_pos (Nat.lt_of_le_of_lt (Nat.zero_le b) hb)
  have hprimed : ∀ target inner', target ≤ code.start 0 → code.Primed c 0 target inner' m' := by
    intro target inner' hle j d _ _ htarget
    have := j.size_pos
    omega
  -- Nothing happens to the object before the last of the three instructions.
  have hquiet : i.changesObjects = false → target = position + i.size → position + i.size ≤ code.start 0 →
      (position < 8 ↔ position + i.size < 8) → (2 ≤ unit.parents.length → position + i.size ≤ 12) →
      ∃ position' inner', unit.Underway path code c base below o 0 position' inner' (history ++ event?.toList) m' := by
    rintro hi rfl hle hiff hhalts'
    refine ⟨_, entered, h.goes hobject' ?_ hslot' hcalls' (Nat.le_add_right _ _) (hcodes.reaches_head hle)
      (hprimed _ _ hle) (fun _ => hiff) hhalts'⟩
    intro g change hsome
    have hchanges := ((hentry g change).mp hsome).2.changesObjects
    rw [hi] at hchanges
    cases hchanges
  rcases hplace with ⟨⟨index, rfl⟩, hposition⟩ | ⟨rfl, hposition⟩ | ⟨rfl, hposition⟩
  · have hsize : (Instruction.constant index).size = 3 := rfl
    refine hquiet rfl ?_ ?_ ?_ ?_
    · rcases hcontinues with hgo | hjump
      · exact (Option.some.inj hgo).symm
      · cases hjump
    all_goals omega
  · have hsize : Instruction.compile.size = 1 := rfl
    refine hquiet rfl ?_ ?_ ?_ ?_
    · rcases hcontinues with hgo | hjump
      · exact (Option.some.inj hgo).symm
      · cases hjump
    all_goals omega
  · have hsize : Instruction.inherit.size = 1 := rfl
    obtain ⟨o', change, hchange⟩ := hperforms.exists_change rfl fun _ => nofun
    have hbuilds := hchange.builds hfetches.ready hfetches.calls_eq hfetches.instruction (by
      rintro x v rfl
      cases hchange)
    cases hbuilds.2.2.symm.trans h.slot
    obtain rfl : event? = some (⟨c, position, base⟩, change) := (hentry _ _).mpr ⟨rfl, hchange⟩
    have hparent : m1.objects.parent? o = (history.replay { name := path }).parent := by
      rw [Objects.parent?, h.object]
      rfl
    cases hchange with
    | @parent _ p _ _ hnone =>
      -- There is no parent yet, so this is the first line.
      have hfirst : position < 8 := by
        by_contra hlate
        exact h.parent hne (by omega) (hparent.symm.trans hnone)
      have htarget : target = 8 := by
        rcases hcontinues with hgo | hjump
        · have heq : position + 1 = target := Option.some.inj hgo
          omega
        · cases hjump
      subst htarget
      rw [Option.toList_some] at hobject' ⊢
      refine ⟨8, entered, hcalls', by omega, hcodes.reaches_head (by omega), hprimed _ _ (by omega), hslot', hobject',
        ?_, fun hnone => ?_, fun _ _ => ?_, fun _ => by omega⟩
      · rw [Object.History.replay_concat]
        exact h.declares.inherited p
      · exact absurd hnone (by simp [hne])
      · rw [Object.History.replay_concat]
        exact Option.some_ne_none p

theorem own (h : unit.Underway path code c base below o k position [] history m1) (hret : i ≠ .ret) :
    ∃ k' position' inner', unit.Underway path code c base below o k' position' inner'
      (history ++ event?.toList) m' := by
  have hat : c.routine.code.At position i := hfetches.instruction
  rcases h.reaches.place hcodes.lists hat with ⟨rfl, hlt⟩ | ⟨part, hpart, hle, hlt⟩ | ⟨_, _, hi⟩
  · exact ⟨0, h.head hcodes hobject hfetches hperforms hentry hlt⟩
  · obtain ⟨member, _, hmember⟩ := hcodes.part hpart
    obtain ⟨initial, d, rfl, hcontained, hd⟩ := hmember.exists_declaration
    by_cases hin : position < code.start k + Code.length initial
    · exact ⟨k, h.initial hcodes hobject hfetches hperforms hentry hpart hcontained hle hin⟩
    · have hlast := (UnitCode.holds_part hcodes.lists hpart).right
      rw [Code.length_append, ← Nat.add_assoc] at hlt
      obtain ⟨front, back, hsplit, hfront⟩ := hlast.exists_split hat (Nat.le_of_not_lt hin) hlt
      cases front with
      | cons _ front => simp at hsplit
      | nil =>
        cases hsplit
        exact ⟨k + 1, _, h.declare hcodes hobject hfetches hperforms hentry hpart hfront hd⟩
  · exact absurd hi hret

end

end ObjectUnit.Underway

/-! ### Objects that are built -/

/-- The object of a unit has all its members and its parent, which was made for the path that the unit
names. -/
structure ObjectUnit.Built (unit : ObjectUnit) (path : String) (code : UnitCode) (c : Closure) (base : Nat)
    (o : ObjectId) (history : Object.History) (m : Machine) : Prop where
  object : m.objects[o]? = some (history.replay { name := path })
  declares : unit.Declares code c base unit.members.length history (history.replay { name := path })
  parents_le : unit.parents.length ≤ 1
  orphan : unit.parents = [] → (history.replay { name := path }).parent = none
  parent : ∀ p ∈ unit.parents, ∃ q, (history.replay { name := path }).parent = some q ∧ o < q ∧
    m.objects.nameOf q = m.library.key p

theorem ObjectUnit.Built.congr {unit : ObjectUnit} {path : String} {code : UnitCode} {c : Closure} {base : Nat}
    {history} (h : unit.Built path code c base o history m) (hobjects : m'.objects = m.objects)
    (hlibrary : m'.library = m.library) : unit.Built path code c base o history m' :=
  ⟨hobjects ▸ h.object, h.declares, h.parents_le, h.orphan, by rw [hobjects, hlibrary]; exact h.parent⟩

namespace ObjectUnit.Underway

variable {unit : ObjectUnit} {path : String} {code : UnitCode} {c : Closure} {base k position : Nat}
  {below inner : List Frame} {history : Object.History} {event? : Option (Frame × Object.Change)}

theorem at_end (h : unit.Underway path code c base below o k position inner history m)
    (hcodes : unit.Codes path code c.routine) (hat : c.routine.code.At position .ret) :
    k = unit.members.length ∧ position = code.start k := by
  rcases h.reaches.place hcodes.lists hat with ⟨rfl, hlt⟩ | ⟨part, hpart, hle, hlt⟩ | ⟨hk, hposition, _⟩
  · obtain ⟨_, _, ⟨⟨_, hi⟩, _⟩ | ⟨hi, _⟩ | ⟨hi, _⟩⟩ := hcodes.head_place hat h.position_ne hlt <;> cases hi
  · exfalso
    obtain ⟨front, back, rfl, _⟩ := (UnitCode.holds_part hcodes.lists hpart).exists_split hat hle hlt
    obtain ⟨member, _, hmember⟩ := hcodes.part hpart
    obtain ⟨initial, d, hsplit, hcontained, name, hd⟩ := hmember.exists_declaration
    cases back using List.reverseRecOn with
    | nil =>
      obtain ⟨_, hi⟩ := append_inj' hsplit rfl
      cases hi
      rcases hd with hd | hd <;> cases hd
    | append_singleton back j =>
      rw [← cons_append, ← append_assoc] at hsplit
      obtain ⟨rfl, _⟩ := append_inj' hsplit rfl
      cases hcontained.of_split.1
  · exact ⟨hk.trans hcodes.length_eq.symm, hposition⟩

theorem built (h : unit.Underway path code c base below o k position [] history m)
    (hcodes : unit.Codes path code c.routine) (hobject : c.routine.kind = .object) (hready : m.Ready past L a)
    (hrears : m.Rears m.works) (hat : c.routine.code.At position .ret) :
    unit.Built path code c base o history m ∧ m.stack.back? = some (.object o) := by
  obtain ⟨rfl, rfl⟩ := h.at_end hcodes hat
  have hstart := hcodes.start_zero
  have hmono := code.start_mono (Nat.zero_le unit.members.length)
  have hle : unit.parents.length ≤ 1 := by
    by_contra htwo
    have := h.halts (by omega)
    omega
  refine ⟨⟨h.object, h.declares, hle, fun hnone => h.orphan (.inl hnone), fun p hp => ?_⟩, ?_⟩
  · have hne : unit.parents ≠ [] := ne_nil_of_mem hp
    have hpos := length_pos_of_ne_nil hne
    have hparents : unit.parents = [p] := by
      obtain ⟨p', hp'⟩ := length_eq_one_iff.mp (Nat.le_antisymm hle hpos)
      rw [hp', mem_singleton] at hp
      rw [hp', hp]
    obtain ⟨q, hq⟩ := Option.ne_none_iff_exists'.mp (h.parent hne (by omega))
    have hparent : m.objects.kinship.parent? o = some q := by rw [Objects.parent?_eq h.object, hq]
    obtain ⟨hf, _⟩ := h.calls_eq ▸ hrears.calls
    obtain ⟨name, p', hname, hp', hroutine⟩ := (hf o ⟨hobject, h.position_ne, h.slot⟩).1.unit
    obtain ⟨_, inherited, hinherits, hnamed⟩ := hrears.lineal.parent hname hp' hparent
    have hinherits' : c.routine.Inherits inherited := hroutine ▸ hinherits
    refine ⟨q, hq, (hrears.lineal.kin o q hparent).1, ?_⟩
    rw [Objects.nameOf_eq hnamed, (hcodes.inherits hparents).unique hinherits']
  · have hone : (L.shapeOf ⟨c, code.start unit.members.length, base⟩).height = 1 :=
      (if_pos hobject).mp (hready.arranged.allowed h.calls_eq hat).values
    have hsize : m.stack.size = base + 1 := (hready.arranged.size_eq h.calls_eq).trans (by rw [hone])
    rw [Array.back?_eq_getElem?, show m.stack.size - 1 = base by omega, h.slot]

theorem turn (h : unit.Underway path code c base below o k position inner history m)
    (hcodes : unit.Codes path code c.routine) (hobject : c.routine.kind = .object) (hrunning : m.Running past L a)
    (hrears : m.Rears m.works) (hturn : Session.Turn m (.ok () m')) (halters : m.Alters o event?) :
    (∃ k position inner, unit.Underway path code c base below o k position inner (history ++ event?.toList) m') ∨
      m'.calls = below ∧ m'.stack.back? = some (.object o) ∧
        unit.Built path code c base o (history ++ event?.toList) m' := by
  obtain ⟨m1, f, rest, i, hfetches, hperforms⟩ := hturn.fetches hrunning
  obtain ⟨inner', hstarted, _⟩ := h.start hrunning hfetches.started
  have hrears' := (hrears.starts hrunning).ok hfetches.started
  have hentry := fun g change => halters.entry hfetches g change
  cases inner' with
  | cons d inner' =>
    exact .inl ⟨k, position, hstarted.above hfetches hrears' hobject hperforms hentry⟩
  | nil =>
    obtain ⟨rfl, rfl⟩ := List.cons.inj (hfetches.calls_eq.symm.trans hstarted.calls_eq)
    by_cases hret : i = .ret
    · right
      subst hret
      obtain ⟨hbuilt, hback⟩ := hstarted.built hcodes hobject hfetches.ready hrears' hfetches.instruction
      obtain ⟨hcalls', hstack', _⟩ := hperforms.returns hfetches.calls_eq
      obtain ⟨hobjects, hlibrary⟩ : m'.objects = m1.objects ∧ m'.library = m1.library := by
        apply hperforms.gives_alone
        exact fun _ => gives_leave _ (fun _ _ => nofun) fun _ => ⟨rfl, rfl⟩
      obtain rfl : event? = none := by
        rw [Option.eq_none_iff_forall_ne_some]
        rintro ⟨g, change⟩ hsome
        cases ((hentry g change).mp hsome).2
      rw [Option.toList_none, append_nil]
      refine ⟨hcalls', ?_, hbuilt.congr hobjects hlibrary⟩
      rw [hstack', Array.back?_push, hback]
      rfl
    · exact .inl (hstarted.own hcodes hobject hfetches hperforms hentry hret)

theorem finishes (h : unit.Underway path code c base below o k position inner history m)
    (hcodes : unit.Codes path code c.routine) (hobject : c.routine.kind = .object) (hrunning : m.Running past L a)
    (hrears : m.Rears m.works) (hturn : Session.Turn m (.error (.finished v) m')) :
    v = .object o ∧ unit.Built path code c base o history m' := by
  obtain ⟨m1, f, hfetches, rfl, hobjects, hlibrary⟩ := hturn.finishes hrunning
  obtain ⟨inner', hstarted, _⟩ := h.start hrunning hfetches.started
  have hcalls := hfetches.calls_eq.symm.trans hstarted.calls_eq
  cases inner' with
  | cons d inner' =>
    have hlength := congrArg List.length hcalls
    simp at hlength
  | nil =>
    obtain ⟨rfl, rfl⟩ := List.cons.inj hcalls
    obtain ⟨hbuilt, hback⟩ :=
        hstarted.built hcodes hobject hfetches.ready ((hrears.starts hrunning).ok hfetches.started)
      hfetches.instruction
    exact ⟨by rw [hback]; rfl, hbuilt.congr hobjects hlibrary⟩

end ObjectUnit.Underway

namespace Session

variable {unit : ObjectUnit} {path : String} {code : UnitCode} {base : Nat} {c : Closure} {below : List Frame}

/-- The construction of an object in a whole run: it is still under way, or it is over. -/
theorem Proceeds.declares (h : Proceeds below.length m0 m') (hm : Reached ⟨a, m0⟩) (ha : a ≠ .idle)
    (hcodes : unit.Codes path code c.routine) (hobject : c.routine.kind = .object)
    (hfirst : ∃ k position inner, unit.Underway path code c base below o k position inner [] m0) :
    ∃ history, Records below.length o m0 history m' ∧
      ((∃ k position inner, unit.Underway path code c base below o k position inner history m') ∨
        m'.calls = below ∧ m'.stack.back? = some (.object o) ∧ unit.Built path code c base o history m') := by
  induction h with
  | refl => exact ⟨[], .refl, .inl hfirst⟩
  | turn hproceeds hdepth hturn ih =>
    obtain ⟨history, hrecords, ⟨k, position, inner, hunderway⟩ | ⟨hover, _⟩⟩ := ih
    · have hreached := hm.leads (hproceeds.leads ha)
      have hrunning := (hreached.orderly .some).running ha
      have hlt := (Array.getElem?_eq_some_iff.mp hunderway.object).1
      obtain ⟨event?, halters⟩ := hturn.exists_alters hrunning hlt
      refine ⟨history ++ event?.toList, .turn hrecords hdepth hturn halters, ?_⟩
      exact hunderway.turn hcodes hobject hrunning (hreached.inLine.rears ha) hturn halters
    · have hlength := congrArg List.length hover
      simp only [calls, length_reverse, Array.length_toList] at hlength
      omega
  | shown output events _ ih =>
    obtain ⟨history, hrecords, hor⟩ := ih
    refine ⟨history, .shown output events hrecords, hor.imp ?_ ?_⟩
    · rintro ⟨k, position, inner, h⟩
      exact ⟨k, position, inner, h.calls_eq, h.position_ne, h.reaches, h.primed, h.slot, h.object, h.declares,
        h.orphan, h.parent, h.halts⟩
    · rintro ⟨hcalls, hback, hbuilt⟩
      exact ⟨hcalls, hback, hbuilt.congr rfl rfl⟩

def Opens (m : Machine) (r : Routine) (f : Frame) (below : List Frame) (m0 : Machine) : Prop :=
  ∃ m1, startProgram m = .ok () m1 ∧ m1.calls = f :: below ∧ f.closure.routine = r ∧ f.position = 0 ∧
    Turn m (.ok () m0)

theorem Opens.underway {r : Routine} (h : Opens m r f below m0) (hrunning : m.Running past L a)
    (hcodes : unit.Codes path code r) (hobject : r.kind = .object) :
    ∃ k position inner, unit.Underway path code f.closure f.base below m.objects.size k position inner [] m0 := by
  obtain ⟨m1, hstart, hcalls, rfl, hposition, hturn⟩ := h
  obtain ⟨m2, g, rest, i, hfetches, hperforms⟩ := hturn.fetches hrunning
  cases hfetches.started.symm.trans hstart
  obtain ⟨rfl, rfl⟩ := List.cons.inj (hfetches.calls_eq.symm.trans hcalls)
  have hobjects : m1.objects.size = m.objects.size := by
    rcases hrunning.started hfetches.started with ⟨_, rfl⟩ | ⟨p, _, _, rfl⟩ <;> rfl
  obtain ⟨name, parents, hhead, hname, hparents⟩ := hcodes.head
  have hfirst : g.code.At g.position (.object name) := by
    have hholds := UnitCode.holds_head hcodes.lists
    rw [hhead] at hholds
    rw [hposition]
    exact hholds.head
  cases hfetches.instruction.unique hfirst
  obtain ⟨hpushed, hstack⟩ := hperforms.object
  obtain ⟨entered, target, hcalls', hcontinues, _⟩ := hperforms.advances hfetches.calls_eq nofun
  have hlt : g.base < m1.stack.size := by
    obtain ⟨_, hmidway, _⟩ := hfetches.ready.arranged
    exact hmidway.base_lt _ _ hfetches.calls_eq
  have htarget : target = 3 := by
    rcases hcontinues with hgo | hjump
    · have heq : g.position + 3 = target := Option.some.inj hgo
      omega
    · cases hjump
  subst htarget
  have hstart := hcodes.start_zero
  refine ⟨0, 3, entered, hcalls', by omega, hcodes.reaches_head (by omega), fun j d _ _ hprimed => ?_, ?_, ?_,
    .start unit code g.closure g.base path, fun _ => rfl, fun _ hle => by omega, fun _ => by omega⟩
  · have := j.size_pos
    omega
  · rw [hstack, Array.getElem?_setIfInBounds_self_of_lt hlt, hobjects]
  · have hcode : g.code.nameAt name = path := by
      show g.closure.routine.code.nameAt name = path
      rw [Code.nameAt, hname]
    rw [hpushed, ← hobjects, Array.getElem?_push_size, hcode]
    rfl

end Session

/-! ### Members that are not declared yet -/

namespace ObjectUnit.Declares

variable {unit : ObjectUnit} {code : UnitCode} {c : Closure} {base k : Nat} {history : Object.History}
  {object : Object} {x : String}

theorem own?_eq_none (h : unit.Declares code c base k history object)
    (hx : x ∉ (unit.members.take k).map Member.name) : object.own? x = none := by
  have hpick : ∀ pick : Member → Option String, (∀ member y, pick member = some y → y = member.name) →
      x ∉ ((unit.members.take k).filterMap pick).eraseDups := by
    intro pick hname hmem
    obtain ⟨member, hmember, hsome⟩ := mem_filterMap.mp (mem_eraseDups.mp hmem)
    exact hx (mem_map.mpr ⟨member, hmember, (hname member x hsome).symm⟩)
  have hfield : object.fields.get? x = none := by
    rw [Members.get?_eq_none_iff, h.field_names]
    refine hpick _ fun member y hy => ?_
    cases member <;> cases hy
    rfl
  have hmethod : object.methods.get? x = none := by
    rw [Members.get?_eq_none_iff, h.method_names]
    refine hpick _ fun member y hy => ?_
    cases member <;> cases hy
    rfl
  rw [Object.own?, hfield, hmethod]
  rfl

end ObjectUnit.Declares

theorem Objects.property?_of_own?_eq_none {l : Library} {objects : Objects} {object : Object} {x : String}
    (h : Kinship.Lineal l objects.kinship) (ho : objects[o]? = some object) (hown : object.own? x = none) :
    objects.property? o x = object.parent.bind fun p => objects.property? p x := by
  rw [property?, search_eq h ho, hown, Option.none_or]
  rfl

theorem Exec.getProperty_of_none {x : String} (h : m.objects.property? o x = none) :
    getProperty (.object o) x m = .error (.fault (.undefinedProperty (m.objects.nameOf o) x)) m := by
  rw [getProperty, show expectObject (.object o) x = pure o from rfl, pure_bind, get_bind, h]
  rfl

/-- Construction builds the object that the unit declares. A unit that compiles consists of lines that name
parents and of members. When its call has started there is a new object of its path, and at each point of the
run the members of the object are those that the call has declared by then. A member that is not yet declared is
looked for in the parent, if there is one. If the call returns, then the result is the object, with all its
members and with the parent that was made for it. No call of a unit that names two parents returns. -/
theorem Session.construction_declares {path source : String} {r : Routine} (hr : compileObject path source = .ok r) :
    (∃ kinds, ∃ unit : ObjectUnit, Scans source kinds ∧ unit.Derives kinds) ∧
    ∀ kinds (unit : ObjectUnit), Scans source kinds → unit.Derives kinds →
      ∃ code, unit.generate path = .ok (code, r.withoutLines) ∧
      ∀ a m f below m0 m', Reached ⟨a, m⟩ → a ≠ .idle → Opens m r f below m0 → Proceeds below.length m0 m' →
        ∃ history, Records below.length m.objects.size m0 history m' ∧
        (below.length < m'.frames.size →
          ∃ k position inner object, m'.calls = inner ++ ⟨f.closure, position, f.base⟩ :: below ∧
            code.Reaches k position ∧ m'.objects[m.objects.size]? = some object ∧
            object = history.replay { name := path } ∧ unit.Declares code f.closure f.base k history object ∧
            (∀ x, x ∉ (unit.members.take k).map Member.name → object.own? x = none ∧
              m'.objects.property? m.objects.size x = object.parent.bind (m'.objects.property? · x) ∧
              (m'.objects.property? m.objects.size x = none → getProperty (.object m.objects.size) x m'
                = .error (.fault (.undefinedProperty path x)) m')) ∧
            ∀ v m'', Turn m' (.error (.finished v) m'') → v = .object m.objects.size ∧
              unit.Built path code f.closure f.base m.objects.size history m'') ∧
        (m'.frames.size ≤ below.length →
          m'.calls = below ∧ m'.stack.back? = some (.object m.objects.size) ∧
            unit.Built path code f.closure f.base m.objects.size history m') := by
  refine ⟨derives_of_compileObject hr, fun kinds unit hscan hderives => ?_⟩
  obtain ⟨code, hgenerate, hcodes⟩ := codes_of_compileObject hr hscan hderives
  have hobject := (isUnit_of_compileObject hr).kind_eq
  refine ⟨code, hgenerate, fun a m f below m0 m' hm ha hopens hproceeds => ?_⟩
  have hfirst := hopens.underway ((hm.orderly .some).running ha) hcodes hobject
  obtain ⟨_, _, _, rfl, _, hturn⟩ := hopens
  have hm0 : Reached ⟨a, m0⟩ := hm.leads (.single (.turn ha hturn))
  have hm' := hm0.leads (hproceeds.leads ha)
  have hframes : m'.frames.size = m'.calls.length := by simp [calls]
  obtain ⟨history, hrecords, ⟨k, position, inner, hunderway⟩ | hover⟩ := hproceeds.declares hm0 ha hcodes hobject hfirst
  · refine ⟨history, hrecords, fun _ => ?_, fun hle => ?_⟩
    · refine ⟨k, position, inner, _, hunderway.calls_eq, hunderway.reaches, hunderway.object, rfl, hunderway.declares,
        fun x hx => ?_, fun v m'' hfinish => ?_⟩
      · have hown := hunderway.declares.own?_eq_none hx
        refine ⟨hown, Objects.property?_of_own?_eq_none hm'.inLine.lineal hunderway.object hown, fun hnone => ?_⟩
        have hname : m'.objects.nameOf m.objects.size = path := by
          rw [Objects.nameOf, hunderway.object]
          exact history.replay_name _
        rw [getProperty_of_none hnone, hname]
      · exact hunderway.finishes hcodes hobject ((hm'.orderly .some).running ha) (hm'.inLine.rears ha) hfinish
    · rw [hframes, hunderway.calls_eq, length_append, length_cons] at hle
      omega
  · refine ⟨history, hrecords, fun hlt => ?_, fun _ => hover⟩
    rw [hframes, hover.1] at hlt
    exact absurd hlt (Nat.lt_irrefl _)

theorem Exec.construction_opens {p : Program} (h : construction p m = .ok () m') :
    m'.calls = ⟨⟨m.nextSerial, p.routine, #[]⟩, 0, m.stack.size⟩ :: m.calls ∧ m'.objects = m.objects ∧
      ∃ c, m'.stack.back? = some (.closure c) := by
  have hgives : (construction p).Gives m (fun _ m' =>
      m'.calls = ⟨⟨m.nextSerial, p.routine, #[]⟩, 0, m.stack.size⟩ :: m.calls ∧ m'.objects = m.objects ∧
        ∃ c, m'.stack.back? = some (.closure c)) fun _ _ => True := by
    refine gives_construction_iff.mpr (gives_callClosure trivial trivial fun _ _ => ⟨calls_push.trans ?_, rfl, ?_⟩)
    · simp [calls, opening]
    · exact ⟨_, Array.back?_push⟩
  exact hgives.ok h

set_option maxRecDepth 20000 in
set_option synthInstance.maxSize 100000 in
/-- A unit that declares a field twice, and a method. What comes of the request to the library is left open. -/
theorem exists_declaring (source : ObjectSource) (loading : Library.Loading) :
    ∃ r, compileObject "/a" "int x=true,x;int f(){}" = .ok r ∧
      ∃ m, construction ⟨0, r⟩ ((Session.start {} source "").machine.afterLoading loading) = .ok () m ∧
      ∃ m0, step m = .ok () m0 ∧ (∀ k < 6, ∃ m1, steps k m0 = .ok () m1 ∧ 0 < m1.frames.size) ∧
      ∃ m', steps 6 m0 = .ok () m' ∧ 0 < m'.frames.size ∧
      ∃ stop m'', step m' = .error stop m'' ∧ stop = .finished (.object 0) :=
  Computed.intro _ (by cbv)

theorem Session.exists_declaring_run :
    ∃ r m m0 m' v m'', compileObject "/a" "int x=true,x;int f(){}" = .ok r ∧ Reached ⟨.construction, m⟩ ∧
      m.Ready {} .some .construction ∧ m.calls = [⟨⟨1, r, #[]⟩, 0, 0⟩] ∧ m.objects = #[] ∧ Turn m (.ok () m0) ∧
      Proceeds 0 m0 m' ∧ 0 < m'.frames.size ∧ Turn m' (.error (.finished v) m'') := by
  obtain ⟨source, loading, hloading, hresult⟩ :=
    Library.exists_loading_of_text "/a" "int x=true,x;int f(){}" "/a" (by cbv)
  obtain ⟨r, hr, m, hm, m0, hm0, hinside, m', hm', hframes, _, m'', hfinish, rfl⟩ := exists_declaring source loading
  have hreached : Reached ⟨.construction, m⟩ :=
    (reached_start source).leads (.single (.construction hloading (hresult r hr) hm))
  obtain ⟨hcalls, hobjects, c, hback⟩ := construction_opens hm
  have hready : m.Ready {} .some .construction := by
    rcases (hreached.orderly .some).running (by rintro ⟨⟩) with hready | ⟨_, p, rfl, _⟩
    · exact hready
    · rw [withStack_stack, Array.back?_push] at hback
      cases hback
  exact ⟨r, m, m0, m', _, m'', hr, hreached, hready, hcalls, hobjects, .step hm0 (by rintro _ _ ⟨⟩),
    .of_steps hinside hm',
    hframes, .step hfinish (by rintro _ _ ⟨⟩)⟩

/-- The object of a unit that declares a field twice, the second time without a value, and a method. -/
theorem Session.construction_declares_twice :
    ∃ r m f m0 m' m'' object v, compileObject "/a" "int x=true,x;int f(){}" = .ok r ∧ Reached ⟨.construction, m⟩ ∧
      Opens m r f [] m0 ∧ Proceeds 0 m0 m' ∧ Turn m' (.error (.finished v) m'') ∧ v = .object 0 ∧
      m''.objects[0]? = some object ∧ object.name = "/a" ∧ object.fields.names = ["x"] ∧
      object.methods.names = ["f"] ∧ object.parent = none := by
  have hactive : Activity.construction ≠ .idle := nofun
  obtain ⟨r, m, m0, m', v, m'', hr, hreached, hready, hcalls, hobjects, hturn, hproceeds, hframes, hend⟩ :=
    exists_declaring_run
  have hopens : Opens m r ⟨⟨1, r, #[]⟩, 0, 0⟩ [] m0 := ⟨m, hready.startProgram_eq, hcalls, rfl, rfl, hturn⟩
  -- The tree of the unit.
  have hx : IsName "x" := by decide
  have hf : IsName "f" := by decide
  have hscan : Scans "int x=true,x;int f(){}" [.type .int, .name "x", .symbol .equal, .keyword .true_, .symbol .comma,
      .name "x", .symbol .semicolon, .type .int, .name "f", .symbol .leftParen, .symbol .rightParen, .symbol .leftBrace,
      .symbol .rightBrace] := scans_iff.mpr (by cbv)
  have hderives : (⟨[], [.field "x" (.some (.literal .true_)), .field "x" .none, .method "f" [] .nil]⟩ :
      ObjectUnit).Derives
      [.type .int, .name "x", .symbol .equal, .keyword .true_, .symbol .comma, .name "x", .symbol .semicolon,
        .type .int, .name "f", .symbol .leftParen, .symbol .rightParen, .symbol .leftBrace, .symbol .rightBrace] :=
    ⟨_, rfl, .fields (.moreVariables hx (.someInitializer (.loosen (by decide) (.literal .true_)))
      (.lastVariable hx .noInitializer))
      (.method hf (.function .noParameters .noDeclarations) .nil)⟩
  obtain ⟨_, hunit⟩ := construction_declares hr
  obtain ⟨code, _, hruns⟩ := hunit _ _ hscan hderives
  obtain ⟨history, _, hunderway, _⟩ := hruns _ _ _ _ _ _ hreached hactive hopens hproceeds
  obtain ⟨_, _, _, _, _, _, _, _, _, _, hfinished⟩ := hunderway hframes
  obtain ⟨hv, hbuilt⟩ := hfinished v m'' hend
  have hsize : m.objects.size = 0 := by
    rw [hobjects]
    rfl
  rw [hsize] at hv hbuilt
  exact ⟨r, m, _, m0, m', m'', _, v, hr, hreached, hopens, hproceeds, hend, hv, hbuilt.object, history.replay_name _,
    hbuilt.declares.field_names, hbuilt.declares.method_names, hbuilt.orphan rfl⟩

end Mudscript
