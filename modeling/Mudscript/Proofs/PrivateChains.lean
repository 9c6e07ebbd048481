import Mudscript.Proofs.Lineage

/-!
# Private chains

Whatever scripts a session runs and whatever objects it loads, each object has a finite chain of parents
with different names, and shares its parents with nobody. So a look-up along a chain comes to an end, and
what is written through one object is not seen through another whose chain is a different one.
-/

namespace Mudscript

open Machine Exec

variable {r : Routine} {s : Session} {name path : String}

variable {past : Moment} {L : Layouts} {a : Activity} {m m' : Machine}

/-! ### Calls from outside -/

theorem Machine.Inside.reset {R : Realm} (h : m.Inside R) : m.reset.Inside R := by
  have hcleared : (((m.withCells (m.cells.closeFrom 0 m.stack)).withStack #[]).withFrames #[]).Inside R :=
    ((h.closeFrom 0).withStack fun v hv => absurd hv (Array.not_mem_empty v)).withFrames
      fun f hf => absurd hf (Array.not_mem_empty f)
  exact hcleared.congr rfl rfl rfl rfl rfl rfl

theorem Machine.Inside.enter {source : String} (h : m.Inside .whole)
    (hcompiled : compileScript name source = .ok r) : StaysIn .whole m (Exec.enter r) := by
  have hunit := isUnit_of_compileScript hcompiled
  have hroutine : Realm.whole.routine m.library r :=
    ⟨⟨r, .inl ⟨name, source, hcompiled⟩, .self⟩, .inl fun _ => kind_ne_of_compileScript hcompiled⟩
  have hclosure : Realm.whole.HasClosure m.library ⟨m.nextSerial, r, #[]⟩ :=
    ⟨hroutine, hunit.upvalueCount_eq.symm, nofun, trivial⟩
  have hpushed := (h.withSerial (m.nextSerial + 1)).push (v := .closure _) hclosure
  obtain ⟨shape, hlayout⟩ := Realm.lawful_whole.layout hroutine
  obtain ⟨i, hi, _⟩ := hlayout.whole 0 .start hlayout.size_pos
  have hcalled : Machine.Inside .whole (((m.withSerial (m.nextSerial + 1)).withStack
      (m.stack.push (.closure ⟨m.nextSerial, r, #[]⟩))).withFrames
        (m.frames.push ⟨⟨m.nextSerial, r, #[]⟩, 0, m.stack.size⟩)) := by
    refine hpushed.withFrames fun f hf => ?_
    rcases Array.mem_push.mp hf with hf | rfl
    · exact h.frames f hf
    · exact ⟨hclosure, i, .start, hlayout.size_pos, hi⟩
  exact hcalled

theorem Machine.enters_enter (henter : Exec.enter r m = .ok () m') : m.Enters m' := by
  cases henter
  refine ⟨rfl, .refl _, [⟨⟨m.nextSerial, r, #[]⟩, 0, m.stack.size⟩], ?_, fun g hg => ?_⟩
  · simp [calls]
  · rw [List.mem_singleton.mp hg]

theorem Machine.Rears.of_idle (hcalls : m.calls = []) (hlineal : Kinship.Lineal m.library m.objects.kinship)
    (henters : m.Enters m') : m'.Rears m'.works := by
  obtain ⟨hkinship, henrolls, entered, hcalls', hentered⟩ := henters
  apply Rears.works
  refine ⟨hkinship ▸ hlineal.grows henrolls.toGrows, ?_⟩
  rw [hcalls', hcalls]
  exact Kinship.Rearing.enter trivial hentered

/-! ### Sessions -/

namespace Session

structure InLine (s : Session) : Prop where
  keyed : s.machine.library.Keyed
  inside : s.machine.Inside .whole
  lineal : Kinship.Lineal s.machine.library s.machine.objects.kinship
  rears : s.activity ≠ .idle → s.machine.Rears s.machine.works

theorem inLine_start (settings : Settings) (source : ObjectSource) (extension : String) :
    (start settings source extension).InLine := by
  have hempty : InLine ⟨.idle, { settings, library := { source, extension } }⟩ := by
    have hprograms : ∀ (key : String) (p : Program), (∅ : Std.HashMap String Program)[key]? ≠ some p :=
      fun key p hp => by simp at hp
    refine ⟨fun key p hp => absurd hp (hprograms key p), ?_, Objects.lineal_empty _, fun ha => absurd rfl ha⟩
    · refine ⟨fun v hv => absurd hv (Array.not_mem_empty v), fun _ name v hv => ?_, fun o object _ hobject => ?_,
        fun id v _ hv => ?_, nofun, fun f hf => absurd hf (Array.not_mem_empty f), Nat.le_refl _, Nat.le_refl _,
        fun key p hp => absurd hp (hprograms key p)⟩
      · simp at hv
      · cases hobject
      · cases hv
  have hdefine : ∀ (ns : List Native) (m : Machine), InLine ⟨.idle, m⟩ →
      InLine ⟨.idle, ns.foldl defineNative m⟩ := by
    intro ns
    induction ns with
    | nil => exact fun _ h => h
    | cons n ns ih =>
      intro m h
      have hinside : m.Inside .whole := h.inside
      exact ih _ ⟨h.keyed, hinside.define n.name (v := .native n) trivial, h.lineal, fun ha => absurd rfl ha⟩
  exact hdefine _ _ hempty

theorem InLine.turn {result} (h : InLine ⟨a, m⟩) (ha : a ≠ .idle)
    (hrunning : m.Running past L a) (hturn : Turn m result) :
    (∀ m', result = .ok () m' → m'.library.Keyed ∧ m'.Inside .whole ∧ m'.Rears m'.works) ∧
      ∀ stop m', result = .error stop m' →
        m'.library.Keyed ∧ m'.Inside .whole ∧ Kinship.Lineal m'.library m'.objects.kinship := by
  have hkeyed : m.library.Keyed := h.keyed
  have hinside : m.Inside .whole := h.inside
  have hstep := (h.rears ha).step hrunning hinside hkeyed
  have hstays := StaysIn.step Realm.lawful_whole hinside fun _ => trivial
  cases hturn with
  | step heq _ =>
    constructor
    · rintro m' rfl
      exact ⟨hkeyed.enrolls (step_enrolls.ok heq), hstays.ok heq, hstep.ok heq⟩
    · rintro stop m' rfl
      exact ⟨hkeyed.enrolls (step_enrolls.error heq).1, hstays.error heq, (hstep.error heq).1⟩
  | @answer r m1 output action _ heq haction hresult =>
    obtain ⟨henrolls, hneeded⟩ := step_enrolls.error heq
    have hkeyed1 : Library.Keyed m1.library := hkeyed.enrolls henrolls
    have hinside1 : Machine.Inside .whole { m1 with output } := (hstays.error heq).congr rfl rfl rfl rfl rfl rfl
    have hrears : m1.Rears (m1.needs r) := (hstep.error heq).2 r rfl
    have hshown : ({ m1 with output } : Machine).Rears (({ m1 with output } : Machine).needs r) := by
      cases r with
      | source key file caller => exact ⟨hrears.lineal, hrears.calls⟩
      | time => exact ⟨hrears.lineal, hrears.calls⟩
    have hneeded' : (Stop.request r).Needed { m1 with output } := by
      cases r with
      | source key file caller => exact hneeded
      | time => trivial
    have hbase : ∀ g ∈ m1.calls, g.base < m1.stack.size := fun g hg => ((safe_step hrunning).error heq).base_lt hg
    have hanswer := hshown.answer hbase hneeded' haction
    have hstays' := StaysIn.answer Realm.lawful_whole hinside1 haction hneeded'
    have henrolls' := lenient_enrolls.answer haction hneeded output
    constructor
    · rintro m' rfl
      exact ⟨hkeyed1.enrolls (henrolls'.ok hresult), hstays'.ok hresult, hanswer.ok hresult⟩
    · rintro stop m' rfl
      exact ⟨hkeyed1.enrolls (henrolls'.error hresult).1, hstays'.error hresult, (hanswer.error hresult).1⟩

theorem InLine.next {s' : Session} (h : s.InLine) (horderly : s.Orderly past L) (hnext : Next s s') : s'.InLine := by
  have hidle : s.activity = .idle → s.machine.calls = [] := by
    intro ha
    rw [calls, (horderly.idle ha).frames_eq]
    rfl
  cases hnext with
  | @script m m' name source r hcompiled henter =>
    have henters : m.Enters m' := enters_enter henter
    have hrears : m'.Rears m'.works := .of_idle (hidle rfl) h.lineal henters
    exact ⟨h.keyed.enrolls henters.library, (h.inside.enter hcompiled).ok henter, hrears.lineal, fun _ => hrears⟩
  | @construction m m' path textOf loading p hload hresult hstart =>
    have hloading := (Library.brings_load hload).stays Realm.lawful_whole h.inside.programs
    have henters := (shortsighted_enters.construction p _).ok hstart
    have hlineal := h.lineal.grows hloading.grows
    have hrears : m'.Rears m'.works := .of_idle (m := m.afterLoading loading) (hidle rfl) hlineal henters
    refine ⟨?_, ?_, hrears.lineal, fun _ => hrears⟩
    · exact (h.keyed.enrolls (Library.brings_load hload).enrolls).enrolls henters.library
    · exact (StaysIn.construction Realm.lawful_whole (h.inside.afterLoading Realm.lawful_whole hloading)
        (hloading.result p hresult)).ok hstart
  | @notStarted m m' path textOf loading p _ hload hresult hstart =>
    have hloading := (Library.brings_load hload).stays Realm.lawful_whole h.inside.programs
    have henters := ((shortsighted_enters.construction p _).error hstart).1
    have hlineal := h.lineal.grows hloading.grows
    have hrears : m'.Rears m'.works := .of_idle (m := m.afterLoading loading) (hidle rfl) hlineal henters
    refine ⟨?_, Machine.Inside.reset ?_, hrears.lineal, fun ha => absurd rfl ha⟩
    · exact (h.keyed.enrolls (Library.brings_load hload).enrolls).enrolls henters.library
    · exact (StaysIn.construction Realm.lawful_whole (h.inside.afterLoading Realm.lawful_whole hloading)
        (hloading.result p hresult)).error hstart
  | @notLoaded m path textOf loading e hload hresult =>
    have hloading := (Library.brings_load hload).stays Realm.lawful_whole h.inside.programs
    exact ⟨h.keyed.enrolls (Library.brings_load hload).enrolls, h.inside.afterLoading Realm.lawful_whole hloading,
      h.lineal.grows hloading.grows, fun ha => absurd rfl ha⟩
  | @native m n =>
    exact ⟨h.keyed, h.inside.define n.name (v := .native n) trivial, h.lineal, fun ha => absurd rfl ha⟩
  | turn ha hturn =>
    obtain ⟨hkeyed, hinside, hrears⟩ := (h.turn ha (horderly.running ha) hturn).1 _ rfl
    exact ⟨hkeyed, hinside, hrears.lineal, fun _ => hrears⟩
  | finish ha hturn =>
    obtain ⟨hkeyed, hinside, hlineal⟩ := (h.turn ha (horderly.running ha) hturn).2 _ _ rfl
    exact ⟨hkeyed, hinside, hlineal, fun ha => absurd rfl ha⟩
  | fault ha hturn =>
    obtain ⟨hkeyed, hinside, hlineal⟩ := (h.turn ha (horderly.running ha) hturn).2 _ _ rfl
    exact ⟨hkeyed, hinside.reset, hlineal, fun ha => absurd rfl ha⟩
  | @shown a m output events =>
    exact ⟨h.keyed, h.inside.congr rfl rfl rfl rfl rfl rfl, h.lineal, fun ha => ⟨h.lineal, (h.rears ha).calls⟩⟩

theorem Reached.inLine (h : s.Reached) : s.InLine := by
  have hboth : s.Orderly {} .some ∧ s.InLine := by
    apply h.induction
    · exact fun settings source extension =>
        ⟨orderly_start _ settings source extension, inLine_start settings source extension⟩
    · exact fun s s' h hnext => ⟨h.1.next hnext, h.2.next h.1 hnext⟩
  exact hboth.2

end Session

/-! ### Chains -/

namespace Objects

variable {objects : Objects} {l : Library} {o o' : ObjectId}

theorem property?_putField {v : Value} {holder : ObjectId}
    (hholder : objects.holder? o name = some holder) (hdisjoint : ∀ i ∈ objects.chain o, i ∉ objects.chain o')
    (member : String) : property? (objects.modify holder (·.putField name v)) o' member = objects.property? o' member :=
  search_modify (g := (·.putField name v)) (fun _ => rfl) (fun _ => rfl)
    (hdisjoint holder (List.mem_of_find?_eq_some hholder)) _

end Objects

/-- The objects of a session form private chains. Going from parent to parent comes to an end, no name comes
twice, nobody has the parent of another, and two objects that are nobody's parents have no parents in
common. Each look-up gives what going from parent to parent gives. A field that is set through one object
is not seen through another, if their chains have nothing in common. -/
theorem Session.private_chains {a : Activity} {m : Machine} (h : Reached ⟨a, m⟩) :
    (∀ o < m.objects.size, m.objects.Lineage o (m.objects.chain o) ∧
      ((m.objects.chain o).map m.objects.nameOf).Nodup) ∧
    (∀ o o' p, m.objects.parent? o = some p → m.objects.parent? o' = some p → o = o') ∧
    (∀ o < m.objects.size, ∀ o' < m.objects.size, o ≠ o' →
      (∀ c, m.objects.parent? c ≠ some o) → (∀ c, m.objects.parent? c ≠ some o') →
      ∀ i ∈ m.objects.chain o, i ∉ m.objects.chain o') ∧ (∀ o < m.objects.size, ∀ name,
      m.objects.Walks (fun _ object => object.own? name) o (m.objects.property? o name) ∧
      m.objects.Walks (fun _ object => object.methods.get? name) o (m.objects.method? o name) ∧
      m.objects.Walks (fun i object => if (object.fields.get? name).isSome then some i else none) o
        (m.objects.holder? o name) ∧
      m.objects.Walks (fun i object => if object.name = name then some i else none) o
        (m.objects.named? o name)) ∧ ∀ o o' name v m', (∀ i ∈ m.objects.chain o, i ∉ m.objects.chain o') →
      Exec.setProperty (.object o) name v m = .ok () m' →
      ∀ member, m'.objects.property? o' member = m.objects.property? o' member := by
  have hlineal : Kinship.Lineal m.library m.objects.kinship := h.inLine.lineal
  have hlineage : ∀ o < m.objects.size, m.objects.Lineage o (m.objects.chain o) :=
    fun o ho => Objects.lineage_chain hlineal ho
  refine ⟨fun o ho => ⟨hlineage o ho, (hlineage o ho).nodup hlineal⟩, fun o o' p hp hp' => ?_,
    fun o ho o' ho' hne hchildless hchildless' => ?_, fun o ho name => ⟨?_, ?_, ?_, ?_⟩, ?_⟩
  · rw [← Objects.parent?_kinship] at hp hp'
    exact hlineal.injective o o' p hp hp'
  · refine (hlineage o ho).disjoint hlineal (hlineage o' ho') hne (fun c => ?_) fun c => ?_
    · rw [Objects.parent?_kinship]
      exact hchildless c
    · rw [Objects.parent?_kinship]
      exact hchildless' c
  · exact (hlineage o ho).walks _
  · exact (hlineage o ho).walks _
  · rw [Objects.holder?, Objects.ancestor?_eq]
    exact (hlineage o ho).walks _
  · rw [Objects.named?, Objects.ancestor?_eq]
    simpa using (hlineage o ho).walks fun i object => if object.name = name then some i else none
  · intro o o' name v m' hdisjoint hset
    have hwrites : (Exec.setProperty (.object o) name v).Gives m (fun _ m' => ∀ member,
        m'.objects.property? o' member = m.objects.property? o' member) fun _ _ => True := by
      refine gives_setProperty (fun o1 holder ho1 hholder member => ?_) fun _ _ => trivial
      cases ho1
      exact Objects.property?_putField hholder hdisjoint member
    exact hwrites.ok hset

/-! ### An object that inherits -/

theorem Exec.load_of_ask {caller : Option String} {loading}
    (h : m.library.ask path m.nextSerial = .loaded loading) : load caller path m = receive caller loading m := by
  rw [load, get_bind, get_bind, h]

theorem Library.load_eq {l : Library} {key text : String} {texts}
    (serial : Nat) (hkey : l.key path = key) (hnew : l.programs[key]? = none) (hsource : l.source = .memory texts)
    (htext : texts[key]? = some text) (hcompiled : compileObject key text = .ok r)
    (textOf : String → Except FileError String) : ∃ events, l.load path serial textOf = ⟨.ok ⟨serial, r⟩,
      { l with programs := l.programs.insert key ⟨serial, r⟩, compiles := l.compiles + 1 }, events⟩ := by
  simp only [load, ask, hkey, hnew, origin, hsource, htext, enroll, hcompiled]
  exact ⟨_, rfl⟩

set_option maxRecDepth 20000 in
set_option synthInstance.maxSize 100000 in
/-- An object is loaded on its own, and then another one that inherits from its unit. What comes of the
requests to the library is left open. -/
theorem exists_heir (source : ObjectSource) (loading : Library.Loading) (later : Library → Nat → Library.Loading) :
    ∃ ra, compileObject "/a" "int x=true;" = .ok ra ∧ ∃ rb, compileObject "/b" "inherit \"a\";" = .ok rb ∧
      ∃ m1, (construction ⟨0, ra⟩ *> steps 3) ((Session.start {} source "").machine.afterLoading loading) = .ok () m1 ∧
      ∃ stop m2, step m1 = .error stop m2 ∧ m2.nextSerial = 2 ∧
      ∃ m3, (construction ⟨2, rb⟩ *> steps 2) (m2.afterLoading (later m2.library 2)) = .ok () m3 ∧
        m3.upcoming? = some (7, .compile) ∧
      ∃ m4, receive none ⟨.ok ⟨0, ra⟩, m3.library, [.cacheHit "/a"]⟩ ((m3.goTo 7).withStack m3.stack.pop) = .ok () m4 ∧
      ∃ m5, steps 5 m4 = .ok () m5 ∧ m5.objects.chain 0 = [0] ∧ m5.objects.chain 1 = [1, 2] ∧
      ∃ m6, setProperty (.object 1) "x" .nil m5 = .ok () m6 ∧
        (stop, m2.library, m3.library, m3.stack.back?) =
          (.finished (.object 0), loading.library, (later loading.library 2).library, some (.text "a")) :=
  Computed.intro _ (by cbv)

/-- An object that was loaded before is not the parent of one that inherits from its unit, and does not see
what is written through that. -/
theorem Session.private_chains_heir :
    ∃ m m' : Machine, Reached ⟨.construction, m⟩ ∧ m.objects.chain 0 = [0] ∧ m.objects.chain 1 = [1, 2] ∧
      ((m.objects.chain 1).map m.objects.nameOf).Nodup ∧ setProperty (.object 1) "x" .nil m = .ok () m' ∧
      m'.objects.property? 0 "x" = m.objects.property? 0 "x" := by
  have hactive : Activity.construction ≠ .idle := by rintro ⟨⟩
  obtain ⟨texts, htexts⟩ : ∃ texts : Std.HashMap String String,
      texts = ((∅ : Std.HashMap String String).insert "/a" "int x=true;").insert "/b" "inherit \"a\";" := ⟨_, rfl⟩
  have hsources : texts["/a"]? = some "int x=true;" ∧ texts["/b"]? = some "inherit \"a\";" := by
    rw [htexts, Std.HashMap.getElem?_insert, if_neg (by decide), Std.HashMap.getElem?_insert_self]
    exact ⟨rfl, Std.HashMap.getElem?_insert_self⟩
  obtain ⟨l, hl⟩ : ∃ l : Library, l = { source := .memory texts, extension := "" } := ⟨_, rfl⟩
  have hkeys : l.key "a" = "/a" ∧ l.key "b" = "/b" := by
    rw [hl]
    exact ⟨by cbv, by cbv⟩
  have hnew : ∀ key : String, l.programs[key]? = none := by
    intro key
    rw [hl]
    simp
  obtain ⟨ra, hra, rb, hrb, m1, hm1, _, m2, hm2, hserial, m3, hm3, hupcoming, m4, hm4, m5, hm5, hchain, hchain', m6,
    hm6, hseen⟩ := exists_heir (.memory texts) (l.load "a" 0 fun _ => .ok "") fun l serial => l.load "b" serial
      fun _ => .ok ""
  simp only [Prod.mk.injEq] at hseen
  obtain ⟨rfl, hlibrary2, hlibrary3, htop⟩ := hseen
  -- The library compiles both units.
  obtain ⟨events, hload⟩ := Library.load_eq 0 hkeys.1 (hnew "/a") (by rw [hl]) hsources.1 hra
    fun _ => .ok ""
  rw [hload] at hm1 hlibrary2 hlibrary3
  obtain ⟨l1, hl1⟩ : ∃ l1, l1 = m2.library := ⟨_, rfl⟩
  have hnew1 : l1.programs["/b"]? = none := by
    rw [hl1, hlibrary2, Std.HashMap.getElem?_insert, if_neg (by decide)]
    exact hnew "/b"
  obtain ⟨events', hload'⟩ := Library.load_eq 2 (show l1.key "b" = "/b" by rw [hl1, hlibrary2]; exact hkeys.2) hnew1
    (by rw [hl1, hlibrary2, hl]) hsources.2 hrb fun _ => .ok ""
  rw [← hlibrary2, ← hl1, hload'] at hlibrary3
  have hask : m3.library.ask "a" m3.nextSerial = .loaded ⟨.ok ⟨0, ra⟩, m3.library, [.cacheHit "/a"]⟩ := by
    have hkey : m3.library.key "a" = "/a" := by
      rw [hlibrary3, hl1, hlibrary2]
      exact hkeys.1
    have hkept : m3.library.programs["/a"]? = some ⟨0, ra⟩ := by
      rw [hlibrary3, Std.HashMap.getElem?_insert, if_neg (by decide), hl1, hlibrary2]
      exact Std.HashMap.getElem?_insert_self
    rw [Library.ask, hkey, hkept]
  -- It has the first one when the unit of the second object inherits.
  obtain ⟨f, _, hstep⟩ := step_of_upcoming? hupcoming
  have hcompile : step m3 = .ok () m4 := by
    have hpop : pop (m3.goTo 7) = .ok (.text "a") ((m3.goTo 7).withStack m3.stack.pop) := by
      show EStateM.Result.ok (m3.stack.back?.getD .nil) _ = _
      rw [htop]
      rfl
    rw [hstep]
    exact (bind_of_ok hpop).trans ((load_of_ask (m := (m3.goTo 7).withStack m3.stack.pop) hask).trans hm4)
  have hreached1 : Reached ⟨.construction, m1⟩ :=
    (reached_start (.memory texts)).construction (by rw [← hload, hl]; rfl) rfl hm1
  have hreached2 : Reached ⟨.idle, m2⟩ := hreached1.leads (.single (.finish hactive (.step hm2 (by rintro _ _ ⟨⟩))))
  have hreached3 : Reached ⟨.construction, m3⟩ :=
    hreached2.construction (by rw [hserial]) (by rw [← hl1, hload']) hm3
  have hreached5 : Reached ⟨.construction, m5⟩ :=
    (hreached3.step hactive hcompile).steps hactive hm5
  obtain ⟨hchains, _, _, _, hwrites⟩ := private_chains hreached5
  have hlt : 1 < m5.objects.size := by
    by_contra hle
    rw [Objects.chain_eq_nil (Nat.le_of_not_lt hle)] at hchain'
    cases hchain'
  refine ⟨m5, m6, hreached5, hchain, hchain', (hchains 1 hlt).2, hm6, ?_⟩
  refine hwrites 1 0 "x" .nil m6 ?_ hm6 "x"
  rw [hchain, hchain']
  decide

end Mudscript
