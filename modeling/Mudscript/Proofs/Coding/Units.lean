import Mudscript.Proofs.Coding.Trees

/-!
# The code of units

What the code of a whole script or object unit is like. The code of an object unit comes in parts: the
object is made, its parents are compiled and inherited from, and then each member is declared in turn.
Between the parts there is nothing but the object on the stack.
-/

namespace Mudscript

open Scopes Generate

variable {c? : Option Constant} {q : Routine} {source : String}

variable {m : Member} {path : String}

theorem Scopes.start_tidy {owner : Option String} (kind : RoutineKind) (name : String)
    (hobject : decide (kind = .object) = owner.isSome) (hscript : kind = .script → owner = none) :
    Tidy owner ⟨.start kind name owner, []⟩ := by
  refine ⟨start_settled kind name owner rfl nofun, rfl, (Bool.or_false _).trans hobject, hscript,
    fun slot hslot => ?_, nofun⟩
  exact Nat.lt_one_iff.mp (List.getElem?_eq_some_iff.mp hslot).1

/-- What a unit is apart from its code: it takes no arguments and captures nothing. -/
structure Routine.IsUnit (r : Routine) (kind : RoutineKind) : Prop where
  kind_eq : r.kind = kind
  arity_eq : r.arity = 0
  upvalueCount_eq : r.upvalueCount = 0

theorem Scopes.Declares.captures_eq {s s' : Scopes} (h : s.Declares s') (hnone : s.enclosing = []) :
    s'.current.captures = #[] := by
  have hforall := h.follows.enclosing
  have hchained := h.settled.chained
  rw [hnone, List.forall₂_nil_left_iff] at hforall
  rw [hforall] at hchained
  exact hchained

/-! ### Scripts -/

structure Declarations.Codes (r : Routine) : Prop where
  isUnit : r.IsUnit .script
  careful : r.Careful none
  nested : ∀ (index : Nat) q, r.code.constants[index]? = some (.routine q) → q.Nested none

theorem Declarations.codes_of_generate {script : Declarations} {name : String} {ts} {r : Routine}
    (h : Derives true .declarations script ts) (hr : script.generate name = .ok r) : Codes r := by
  cases hresult : script.code none none ⟨.start .script name none, []⟩ with
  | error m =>
    rw [Declarations.generate, StateT.run, hresult] at hr
    cases hr
  | ok result =>
    obtain ⟨code, σ⟩ := result
    rw [Declarations.generate, StateT.run, hresult] at hr
    cases hr
    have hstates : States none none ⟨.start .script name none, []⟩ code σ :=
      h.coded none none _ (start_tidy .script name rfl fun _ => rfl) (.inl rfl) _ _ hresult
    have hlayout := hstates.lays.layout hstates.declares (hstates.runs (by rintro _ ⟨⟩)) (by rintro ⟨⟩) rfl
    have hc := hstates.declares.follows.current
    exact ⟨⟨hc.kind_eq, hc.arity_eq, congrArg Array.size (hstates.declares.captures_eq rfl)⟩,
      (hstates.lays.finishes hlayout).careful, hstates.lays.tidy.routines⟩

/-! ### The stack between the parts of an object unit -/

theorem Scope.traces_step {s : Scope} {r : Routine} {w : Ways} {b h h' : Nat} {i : Instruction} {t u : Option ValueType}
    (hle : 1 ≤ h) (hallowed : i.Allowed r { s.shape ∅ 1 h with top := t }) (hfar : ∀ next, i.far? next = none)
    (hheight : h' = h - i.taken + i.given) (hcaptures : i.captures = [])
    (htop : u = none ∨ u = i.result? r.code.constants) :
    Traces r w b { s.shape ∅ 1 h with top := t } [.write i] { s.shape ∅ 1 h' with top := u } := by
  refine .plain ⟨Nat.one_pos, hle, fun _ hk => hk.1⟩ hallowed hfar ⟨hheight, Nat.min_le_left _ _, ?_, htop⟩
  rintro k (⟨hk, _⟩ | hk)
  · exact hk
  · rw [hcaptures] at hk
    exact absurd hk List.not_mem_nil

namespace Scopes

variable {owner : Option String} {σ σ1 σ' : Scopes} {ps qs : List Piece} {is : List Instruction} {name : Nat}

structure Adds (owner : Option String) (σ : Scopes) (ps : List Piece) (σ' : Scopes) : Prop extends
    σ.Performed owner ps σ' where
  traces : σ.current.locals.length = 1 → ∀ ⦃r : Routine⦄ ⦃w : Ways⦄ ⦃b : Nat⦄, r.Extends σ' →
    Traces r w b (σ.current.shape ∅ 1 1) ps (σ'.current.shape ∅ 1 1)

theorem Adds.nil (h : σ.Tidy owner) : σ.Adds owner [] σ := ⟨.nil h, fun _ _ _ _ _ => .nil (.refl _)⟩

theorem Adds.append (h : σ.Adds owner ps σ1) (h' : σ1.Adds owner qs σ') : σ.Adds owner (ps ++ qs) σ' := by
  refine ⟨h.toPerformed.append h'.toPerformed, fun hlength r w b hr => ?_⟩
  exact (h.traces hlength (h'.performs.follows.retains.extends hr)).append
    (h'.traces (h.performs.length_eq.trans hlength) hr)

theorem sees_object (hlength : σ.current.locals.length = 1) : σ.Sees 1 :=
  ⟨fun _ _ hget _ => hlength ▸ Scope.lt_of_localAt? hget, fun _ => rfl⟩

theorem Names.hasConstant {r : Routine} (h : σ.Names name) (hr : r.Extends σ) : r.HasConstant name Constant.IsText := by
  obtain ⟨c, hget, hc⟩ := h.isText
  exact ⟨c, hr.constants _ _ hget, hc⟩

theorem Coded.adds_field (h : σ.Coded owner is 1 σ') (hname : σ'.Names name) (hkind : σ'.current.kind = .object) :
    σ.Adds owner (written (is ++ [.field name])) σ' := by
  refine ⟨?_, fun hlength r w b hr => ?_⟩
  · rw [written_append]
    exact h.performed.plain _ (List.forall_mem_singleton.mpr ⟨hname.lt, trivial, hname.isText, hkind⟩)
  · have hlength' := h.performs.length_eq.trans hlength
    rw [written_append]
    exact (h.pushes hr (sees_object hlength') Nat.one_pos (Nat.le_refl 1)).append
      (Scope.traces_step (t := none) (u := none)
      (i := .field name) (Nat.le_succ 1) ⟨hname.hasConstant hr, hr.kind_eq.trans hkind, rfl, rfl⟩
        (fun _ => rfl) rfl rfl (.inl rfl))

theorem Coded.adds_method {index : Nat} {captures} (h : σ.Coded owner [.closure index captures] 1 σ')
    (hname : σ'.Names name) (hkind : σ'.current.kind = .object) :
    σ.Adds owner (written [.closure index captures, .method name]) σ' := by
  have hpieces : written [.closure index captures, .method name] = written [.closure index captures]
      ++ written [.method name] := rfl
  refine ⟨?_, fun hlength r w b hr => ?_⟩
  · rw [hpieces]
    exact h.performed.plain _ (List.forall_mem_singleton.mpr ⟨hname.lt, trivial, hname.isText, hkind⟩)
  · have hlength' := h.performs.length_eq.trans hlength
    have hclosure : Traces r w b (σ'.current.shape ∅ 1 1) [.write (.closure index captures)]
        { σ'.current.shape ∅ 1 2 with top := some .function } :=
      (h.computes.uses _ (List.mem_singleton_self _)).traces_closure h.tidy.toSettled hr
        (sees_object hlength') Nat.one_pos
        (Nat.le_refl 1) (.inl rfl)
    rw [hpieces]
    exact (hclosure.weaken (h.follows.current.shape_flows ∅ 1 1) (.refl _)).append (Scope.traces_step (u := none)
      (i := .method name) (Nat.le_succ 1) ⟨hname.hasConstant hr, hr.kind_eq.trans hkind, rfl, rfl, rfl⟩
        (fun _ => rfl) rfl rfl
      (.inl rfl))

end Scopes

/-! ### Members -/

def Member.Codes (constants : Array Constant) : Member → List Instruction → Prop
  | .field x value, is => ∃ initial name, is = initial ++ [.field name] ∧ constants[name]? = some (.text x) ∧
      Operands initial 1 ∧ (value = .none → initial = [.pushNil])
  | .method x ps _, is => ∃ index captures name, ∃ q : Routine, is = [.closure index captures, .method name] ∧
      constants[name]? = some (.text x) ∧ constants[index]? = some (.routine q) ∧ q.kind = .method ∧ q.name = x ∧
      q.arity = ps.length

theorem Member.Codes.mono {constants constants' is} (h : m.Codes constants is)
    (hconstants : ∀ (i : Nat) c, constants[i]? = some c → constants'[i]? = some c) : m.Codes constants' is := by
  cases m with
  | field x value =>
    obtain ⟨initial, name, his, hname, hinitial, hnone⟩ := h
    exact ⟨initial, name, his, hconstants _ _ hname, hinitial, hnone⟩
  | method x ps body =>
    obtain ⟨index, captures, name, q, his, hname, hq, hrest⟩ := h
    exact ⟨index, captures, name, q, his, hconstants _ _ hname, hconstants _ _ hq, hrest⟩

def Member.Coded (owner : Option String) : Member → Prop
  | .field _ value => Form.Coded owner .initializer value
  | .method _ ps body => Form.Coded owner .function (ps, body)

def Member.Derived : Member → Prop
  | .field _ value => ∃ ts, Derives true .initializer value ts
  | .method _ ps body => ∃ ts, Derives true .function (ps, body) ts

theorem Member.Derived.coded (h : m.Derived) (owner : Option String) : m.Coded owner := by
  cases m with
  | field x value => exact h.choose_spec.coded owner
  | method x ps body => exact h.choose_spec.coded owner

theorem Declarators.fields_derived :
    (vs : Declarators) → {ts : List TokenKind} → Derives true .variables vs ts → ∀ m ∈ vs.fields, m.Derived
  | .nil, _, h => nomatch h
  | .cons x value rest, _, h => by
    cases h with
    | lastVariable _ hvalue =>
      rw [fields, fields, List.forall_mem_singleton]
      exact ⟨_, hvalue⟩
    | moreVariables _ hvalue hrest =>
      rw [fields, List.forall_mem_cons]
      exact ⟨⟨_, hvalue⟩, fields_derived rest hrest⟩

theorem DerivesMembers.derived {ms ts} (h : DerivesMembers ms ts) : ∀ m ∈ ms, m.Derived := by
  induction h with
  | nil => exact nofun
  | fields hvs _ ih => exact List.forall_mem_append.mpr ⟨Declarators.fields_derived _ hvs, ih⟩
  | method _ hfunction _ ih => exact List.forall_mem_cons.mpr ⟨⟨_, hfunction⟩, ih⟩

structure Scopes.Declared (owner : Option String) (σ : Scopes) (ms : List Member) (parts : List (List Instruction))
    (σ' : Scopes) : Prop extends σ.Adds owner (written parts.flatten) σ' where
  members : List.Forall₂ (Member.Codes σ'.current.draft.constants) ms parts

namespace Generate

variable {owner : Option String} {σ : Scopes}

theorem Ensures.member (hm : m.Coded owner) (hσ : σ.Tidy owner) (hkind : σ.current.kind = .object) :
    Ensures (m.code owner) σ fun is σ' => σ.Adds owner (written is) σ' ∧
      m.Codes σ'.current.draft.constants is := by
  cases m with
  | field x value =>
    refine .bind (Q := fun is σ' => σ.Coded owner is 1 σ' ∧ (value = .none → is = [.pushNil])) ?_ ?_
    · intro is σ' h
      refine ⟨Clause.coded hm σ hσ is σ' h, ?_⟩
      rintro rfl
      cases h
      rfl
    · rintro initial σ1 ⟨h, hnone⟩
      refine (Ensures.text x h.tidy).bind ?_
      rintro name σ2 ⟨he, ht, hget, hname⟩
      have hinitial := h.andThen he ht
      refine .pure ⟨hinitial.adds_field ⟨hname, _, hget, x, rfl⟩ ?_, initial, name, rfl, hget,
        hinitial.computes.operands, hnone⟩
      exact hinitial.follows.current.kind_eq.trans hkind
  | method x ps body =>
    refine (Ensures.routine (.inr rfl) hσ hm.1 hm.2).bind ?_
    rintro closure σ1 ⟨h, index, captures, q, rfl, hq, hrest⟩
    refine (Ensures.text x h.tidy).bind ?_
    rintro name σ2 ⟨he, ht, hget, hname⟩
    have hmade := h.andThen he ht
    refine .pure ⟨hmade.adds_method ⟨hname, _, hget, x, rfl⟩ ?_, index, captures, name, q, rfl, hget,
      he.follows.current.constants _ _ hq, hrest⟩
    exact hmade.follows.current.kind_eq.trans hkind

theorem Ensures.members {ms : List Member} (hms : ∀ m ∈ ms, m.Coded owner) (hσ : σ.Tidy owner)
    (hkind : σ.current.kind = .object) : Ensures (ms.mapM (Member.code owner)) σ (σ.Declared owner ms) := by
  induction ms generalizing σ with
  | nil =>
    rw [List.mapM_nil]
    exact .pure ⟨.nil hσ, .nil⟩
  | cons m ms ih =>
    rw [List.forall_mem_cons] at hms
    rw [List.mapM_cons]
    refine (Ensures.member hms.1 hσ hkind).bind ?_
    rintro is σ1 ⟨hadds, hcodes⟩
    have hkind1 := hadds.performs.follows.current.kind_eq.trans hkind
    refine (ih hms.2 hadds.lays.tidy hkind1).bind fun parts σ' h => .pure ⟨?_, .cons ?_ h.members⟩
    · rw [List.flatten_cons, written_append]
      exact hadds.append h.toAdds
    · exact hcodes.mono h.performs.follows.retains.constants

end Generate

/-! ### Object units -/

def Inheriting (constants : Array Constant) (path : String) (is : List Instruction) : Prop :=
  ∃ index, is = [.constant index, .compile, .inherit] ∧ constants[index]? = some (.text path)

structure ObjectUnit.Codes (unit : ObjectUnit) (path : String) (code : UnitCode) (r : Routine) : Prop where
  head : ∃ name parents, code.head = .object name :: parents.flatten ∧ r.code.constants[name]? = some (.text path) ∧
    List.Forall₂ (Inheriting r.code.constants) unit.parents parents
  members : List.Forall₂ (Member.Codes r.code.constants) unit.members code.members
  lists : r.code.Lists code.instructions
  isUnit : r.IsUnit .object
  name_eq : r.name = path
  careful : r.Careful (some path)
  nested : ∀ (index : Nat) q, r.code.constants[index]? = some (.routine q) → q.Nested (some path)

namespace Generate

variable {owner : Option String} {σ : Scopes}

theorem Ensures.inheritance (path : String) (hσ : σ.Tidy owner) (hkind : σ.current.kind = .object) :
    Ensures (Generate.inheritance path) σ fun is σ' => σ.Adds owner (written is) σ' ∧
      Inheriting σ'.current.draft.constants path is := by
  refine (Ensures.text path hσ).bind ?_
  rintro index σ' ⟨he, ht, hget, hlt⟩
  have hkind' := he.follows.current.kind_eq.trans hkind
  refine .pure ⟨⟨⟨he, .plain ht ?_⟩, fun hlength r w b hr => ?_⟩, index, rfl, hget⟩
  · simp only [List.forall_mem_cons]
    exact ⟨⟨hlt, trivial, ⟨_, hget, .inr ⟨path, rfl⟩⟩, trivial⟩, ⟨trivial, trivial, trivial, hkind'⟩,
      ⟨trivial, trivial, trivial, hkind'⟩, by simp⟩
  · have hget' := hr.constants _ _ hget
    have hobject := hr.kind_eq.trans hkind'
    have hconstant : Traces r w b (σ'.current.shape ∅ 1 1) [.write (.constant index)]
        { σ'.current.shape ∅ 1 2 with top := some .string } :=
      Scope.traces_step (t := none) (Nat.le_refl 1) ⟨⟨_, hget', .inr ⟨path, rfl⟩⟩, Nat.le_refl 1⟩ (fun _ => rfl) rfl rfl
        (.inr (by rw [Instruction.result?, hget']))
    refine (hconstant.weaken (he.follows.current.shape_flows ∅ 1 1) (.refl _)).cons (.cons
      (Scope.traces_step (i := .compile) (u := some .object) (Nat.le_succ 1) ⟨trivial, Nat.lt_succ_self 1, hobject, rfl⟩
        (fun _ => rfl) rfl rfl (.inr rfl)) ?_)
    exact Scope.traces_step (i := .inherit) (u := none) (Nat.le_succ 1) ⟨trivial, hobject, rfl, rfl, rfl⟩
      (fun _ => rfl) rfl rfl
      (.inl rfl)

theorem Ensures.inheritances {paths : List String} (hσ : σ.Tidy owner) (hkind : σ.current.kind = .object) :
    Ensures (paths.mapM Generate.inheritance) σ fun parts σ' => σ.Adds owner (written parts.flatten) σ' ∧
      List.Forall₂ (Inheriting σ'.current.draft.constants) paths parts := by
  induction paths generalizing σ with
  | nil =>
    rw [List.mapM_nil]
    exact .pure ⟨.nil hσ, .nil⟩
  | cons path paths ih =>
    rw [List.mapM_cons]
    refine (Ensures.inheritance path hσ hkind).bind ?_
    rintro is σ1 ⟨hadds, index, rfl, hget⟩
    refine (ih hadds.lays.tidy (hadds.performs.follows.current.kind_eq.trans hkind)).bind ?_
    rintro parts σ' ⟨h, hparts⟩
    refine .pure ⟨?_, .cons ⟨index, rfl, h.performs.follows.current.constants _ _ hget⟩ hparts⟩
    rw [List.flatten_cons, written_append]
    exact hadds.append h

end Generate

theorem Generate.Ensures.unit {unit : ObjectUnit} (hmembers : ∀ m ∈ unit.members, m.Coded (some path)) :
    Ensures (unit.code path) ⟨.start .object path (some path), []⟩ fun code σ =>
      unit.Codes path code (code.routine σ.current) := by
  refine (Ensures.text path (start_tidy .object path rfl (by rintro ⟨⟩))).bind ?_
  rintro name σ1 ⟨he1, ht1, hname, hlt⟩
  have hkind1 : σ1.current.kind = .object := he1.follows.current.kind_eq
  refine (Ensures.inheritances ht1 hkind1).bind ?_
  rintro parents σ2 ⟨hadds2, hparents⟩
  have hkind2 := hadds2.performs.follows.current.kind_eq.trans hkind1
  refine (Ensures.members hmembers hadds2.lays.tidy hkind2).bind fun members σ3 hdeclared => .pure ?_
  have hkept := hdeclared.performs.follows.current.constants
  have hkind := hdeclared.performs.follows.current.kind_eq.trans hkind2
  have hobject : σ1.Adds (some path) (written [.object name]) σ1 := by
    refine ⟨(Performed.nil ht1).plain [.object name]
      (List.forall_mem_singleton.mpr ⟨hlt, trivial, ⟨_, hname, path, rfl⟩, hkind1⟩),
      fun _ r w b hr => ?_⟩
    exact Scope.traces_step (t := none) (u := none) (Nat.le_refl 1) ⟨⟨_, hr.constants _ _ hname, path, rfl⟩,
      hr.kind_eq.trans hkind1⟩ (fun _ => rfl) rfl rfl (.inl rfl)
  have hall := (hobject.append hadds2).append hdeclared.toAdds
  rw [← written_append, ← written_append] at hall
  have hlays := (hall.toPerformed.plain [.ret] (List.forall_mem_singleton.mpr (.bare rfl))).lays
  rw [← written_append] at hlays
  obtain ⟨r, hr⟩ : ∃ r, r = (⟨.object name :: parents.flatten, members⟩ : UnitCode).routine σ3.current := ⟨_, rfl⟩
  have hlists : r.code.Lists ([.object name] ++ parents.flatten ++ members.flatten ++ [.ret]) := by
    rw [hr]
    exact ⟨rfl, fun i hi => (hlays.suits i (Piece.mem_written.mpr hi)).encodable.of_constants_eq rfl⟩
  have hextends : r.Extends σ3 := by
    rw [hr]
    exact ⟨rfl, Nat.le_refl _, fun _ _ hc => hc⟩
  have hall' := he1.toDeclares.trans hall.performs.toDeclares
  have harity : r.arity = 0 := hr ▸ hall'.follows.current.arity_eq
  have hlayout : ∃ shape, r.Layout shape := by
    have htraces := hall.traces (w := .closed) (b := 0) he1.length_eq hextends
    refine Traces.layout (htraces.weaken ?_ (.refl _)) hlists (Scope.shape_proper Nat.one_pos (Nat.le_refl 1))
      ⟨trivial, ?_⟩
      fun _ => ⟨name, (hlists.at_iff 0 _).mpr ⟨[], _, rfl, rfl⟩⟩
    · rw [harity]
      exact ⟨rfl, Nat.le_refl _, fun _ hk => hk.elim, .inl rfl⟩
    · exact (if_pos (hextends.kind_eq.trans hkind)).mpr rfl
  have hfinishes : σ3.Finishes (some path) r ([.object name] ++ parents.flatten ++ members.flatten ++ [.ret]) :=
    ⟨hlays.tidy, hr ▸ rfl, hr ▸ rfl, hr ▸ rfl, hlists, hlayout, fun i hi => hlays.suits i (Piece.mem_written.mpr hi)⟩
  rw [← hr]
  refine ⟨⟨name, parents, rfl, ?_, ?_⟩, ?_, hlists, ⟨hextends.kind_eq.trans hkind, harity, ?_⟩, ?_,
    hfinishes.careful, ?_⟩
  · rw [hfinishes.constants_eq]
    exact hkept _ _ (hadds2.performs.follows.current.constants _ _ hname)
  · rw [hfinishes.constants_eq]
    exact hparents.imp fun _ _ h => h.imp fun _ h => ⟨h.1, hkept _ _ h.2⟩
  · rw [hfinishes.constants_eq]
    exact hdeclared.members
  · rw [hr]
    exact congrArg Array.size (hall'.captures_eq rfl)
  · rw [hr]
    exact hall'.follows.current.name_eq
  · rw [hfinishes.constants_eq]
    exact hlays.tidy.routines

theorem ObjectUnit.codes_of_generate {unit : ObjectUnit} {ts} (h : unit.Derives ts)
    {code} {r : Routine} (hr : unit.generate path = .ok (code, r)) : unit.Codes path code r := by
  obtain ⟨us, _, hmembers⟩ := h
  cases hresult : unit.code path ⟨.start .object path (some path), []⟩ with
  | error m =>
    rw [ObjectUnit.generate, StateT.run, hresult] at hr
    cases hr
  | ok result =>
    obtain ⟨code', σ⟩ := result
    rw [ObjectUnit.generate, StateT.run, hresult] at hr
    cases hr
    exact Ensures.unit (fun m hm => (hmembers.derived m hm).coded _) _ _ hresult

/-! ### Lines -/

namespace Code

variable {code : Code} {offset index : Nat} {i : Instruction} {is : List Instruction}

@[simp] theorem withoutLines_bytes (code : Code) : code.withoutLines.bytes = code.bytes := by rw [withoutLines_eq]

theorem getElem?_withoutLines (code : Code) (index : Nat) :
    code.withoutLines.constants[index]? = code.constants[index]?.map Constant.withoutLines := by
  rw [withoutLines_eq, Array.getElem?_map]

theorem routineAt?_withoutLines (code : Code) (index : Nat) :
    code.withoutLines.routineAt? index = (code.routineAt? index).map Routine.withoutLines := by
  rw [routineAt?, routineAt?, getElem?_withoutLines]
  cases code.constants[index]? with
  | none => rfl
  | some c => cases c <;> rfl

@[simp] theorem captureCount_withoutLines (code : Code) (index : Nat) :
    code.withoutLines.captureCount index = code.captureCount index := by
  rw [captureCount, captureCount, routineAt?_withoutLines]
  cases code.routineAt? index with
  | none => rfl
  | some q =>
    cases q
    rw [Option.map_some, Routine.withoutLines]

theorem instructionAt?_withoutLines (code : Code) (offset : Nat) :
    code.withoutLines.instructionAt? offset = code.instructionAt? offset := by
  have hbyte : code.withoutLines.byteAt = code.byteAt := by
    funext k
    rw [byteAt, byteAt, withoutLines_bytes]
  have hcount : code.withoutLines.captureCount = code.captureCount := funext code.captureCount_withoutLines
  simp only [instructionAt?, fetch?, hbyte, Fetch.operands_congr hbyte hcount]

theorem boundary_withoutLines : code.withoutLines.Boundary offset ↔ code.Boundary offset := by
  have hsize : code.withoutLines.size = code.size := by rw [size, size, withoutLines_bytes]
  have hnext : ∀ k, code.withoutLines.nextOffset k = code.nextOffset k := fun k => by
    rw [nextOffset, nextOffset, instructionAt?_withoutLines]
  constructor
  · intro h
    induction h with
    | start => exact .start
    | @next k _ hlt ih => exact hnext k ▸ .next ih (hsize ▸ hlt)
  · intro h
    induction h with
    | start => exact .start
    | @next k _ hlt ih => exact (hnext k).symm ▸ .next ih (hsize.symm ▸ hlt)

theorem at_withoutLines : code.withoutLines.At offset i ↔ code.At offset i := by
  have hsize : code.withoutLines.size = code.size := by rw [size, size, withoutLines_bytes]
  constructor
  · rintro ⟨hboundary, hlt, hi⟩
    exact ⟨boundary_withoutLines.mp hboundary, hsize ▸ hlt, instructionAt?_withoutLines code offset ▸ hi⟩
  · rintro ⟨hboundary, hlt, hi⟩
    exact ⟨boundary_withoutLines.mpr hboundary, hsize.symm ▸ hlt, (instructionAt?_withoutLines code offset).trans hi⟩

theorem lists_of_withoutLines (h : code.withoutLines.Lists is) : code.Lists is := by
  refine ⟨withoutLines_bytes code ▸ h.bytes_eq, fun i hi => ?_⟩
  have hencodable := h.encodable i hi
  cases i with
  | closure index captures =>
    exact ⟨hencodable.1, captureCount_withoutLines code index ▸ hencodable.2.1, hencodable.2.2⟩
  | _ => exact hencodable

end Code

theorem Constant.text_of_withoutLines {x : String}
    (h : c?.map Constant.withoutLines = some (.text x)) : c? = some (.text x) := by
  obtain ⟨c, rfl, hc⟩ := Option.map_eq_some_iff.mp h
  cases c with
  | text y => exact congrArg some hc
  | number n => cases hc
  | routine r => cases hc

theorem Constant.routine_of_withoutLines
    (h : c?.map Constant.withoutLines = some (.routine q)) : ∃ q', c? = some (.routine q') ∧ q'.withoutLines = q := by
  obtain ⟨c, rfl, hc⟩ := Option.map_eq_some_iff.mp h
  cases c with
  | text y => cases hc
  | number n => cases hc
  | routine r => exact ⟨r, rfl, Constant.routine.inj hc⟩

namespace Routine

variable {r p : Routine} {owner : Option String} {index : Nat}

theorem withoutLines_eq (r : Routine) : r.withoutLines = { r with code := r.code.withoutLines } := by
  cases r
  rw [withoutLines]

@[simp] theorem withoutLines_code (r : Routine) : r.withoutLines.code = r.code.withoutLines := by rw [withoutLines_eq]

@[simp] theorem withoutLines_kind (r : Routine) : r.withoutLines.kind = r.kind := by rw [withoutLines_eq]

@[simp] theorem withoutLines_owner (r : Routine) : r.withoutLines.owner = r.owner := by rw [withoutLines_eq]

@[simp] theorem withoutLines_upvalueCount (r : Routine) : r.withoutLines.upvalueCount = r.upvalueCount := by
  rw [withoutLines_eq]

theorem withoutLines_head (r : Routine) : r.withoutLines.name = r.name ∧ r.withoutLines.arity = r.arity := by
  rw [withoutLines_eq]
  exact ⟨rfl, rfl⟩

theorem IsUnit.of_withoutLines {kind} (h : r.withoutLines.IsUnit kind) : r.IsUnit kind :=
  ⟨r.withoutLines_kind ▸ h.kind_eq, r.withoutLines_head.2 ▸ h.arity_eq, r.withoutLines_upvalueCount ▸ h.upvalueCount_eq⟩

theorem routineAt?_withoutLines (h : r.code.routineAt? index = some q) :
    r.withoutLines.code.routineAt? index = some q.withoutLines := by
  rw [withoutLines_code, Code.routineAt?_withoutLines, h]
  rfl

theorem at_withoutLines {offset : Nat} {i} : r.withoutLines.code.At offset i ↔ r.code.At offset i := by
  rw [withoutLines_code, Code.at_withoutLines]

theorem Assigns.withoutLines (h : r.Assigns index) : r.withoutLines.Assigns index := by
  induction h with
  | here hi => exact .here (at_withoutLines.mpr hi)
  | inside hi hq hc _ ih => exact .inside (at_withoutLines.mpr hi) (routineAt?_withoutLines hq) hc ih

theorem Within.withoutLines (h : r.Within p) : r.withoutLines.Within p.withoutLines := by
  induction h with
  | self => exact .self
  | @inside r q p index hget _ ih =>
    have hget' : r.withoutLines.code.constants[index]? = some (.routine q.withoutLines) := by
      rw [withoutLines_code, Code.getElem?_withoutLines, hget]
      rfl
    exact .inside hget' ih

theorem HasConstant.of_withoutLines {p : Constant → Prop} (h : r.withoutLines.HasConstant index p)
    (hp : ∀ c : Constant, p c.withoutLines → p c) : r.HasConstant index p := by
  obtain ⟨c, hget, hc⟩ := h
  rw [withoutLines_code, Code.getElem?_withoutLines] at hget
  obtain ⟨c, hget', rfl⟩ := Option.map_eq_some_iff.mp hget
  exact ⟨c, hget', hp c hc⟩

end Routine

theorem Constant.isText_of_withoutLines (c : Constant) (h : c.withoutLines.IsText) : c.IsText := by
  obtain ⟨s, hs⟩ := h
  have hmap : (some c).map Constant.withoutLines = some (.text s) := congrArg some hs
  exact ⟨s, Option.some.inj (text_of_withoutLines hmap)⟩

theorem Constant.isLiteral_of_withoutLines (c : Constant) (h : c.withoutLines.IsLiteral) : c.IsLiteral := by
  cases c with
  | number n => exact .inl ⟨n, rfl⟩
  | text s => exact .inr ⟨s, rfl⟩
  | routine r => rcases h with ⟨_, h⟩ | ⟨_, h⟩ <;> cases h

theorem Capture.Allowed.of_withoutLines {r : Routine} {σ : Shape} {j : Nat} {c : Capture}
    (h : c.Allowed r.withoutLines q.withoutLines σ j) : c.Allowed r q σ j := by
  rw [Capture.Allowed, Routine.withoutLines_kind, Routine.withoutLines_kind, q.withoutLines_head.1,
    Routine.withoutLines_upvalueCount] at h
  rw [Capture.Allowed]
  split
  · rename_i hlocal
    rw [if_pos hlocal] at h
    exact ⟨h.1, h.2.1, fun hobject hassigns => h.2.2 hobject hassigns.withoutLines⟩
  · rename_i hlocal
    rwa [if_neg hlocal] at h

theorem Instruction.Allowed.of_withoutLines {r : Routine} {σ : Shape} {i : Instruction}
    (h : i.Allowed r.withoutLines σ) : i.Allowed r σ := by
  obtain ⟨hoperands, hvalues⟩ := h
  refine ⟨?_, ?_⟩
  · cases i with
    | constant _ => exact Routine.HasConstant.of_withoutLines hoperands Constant.isLiteral_of_withoutLines
    | setLocal _ => exact ⟨hoperands.1, r.withoutLines_kind ▸ hoperands.2⟩
    | getUpvalue _ | setUpvalue _ => exact Nat.lt_of_lt_of_eq hoperands r.withoutLines_upvalueCount
    | getGlobal _ | defineGlobal _ | setGlobal _ | getProperty _ | setProperty _ | invoke _ _
    | superInvoke _ _ | object _ | field _ | method _ =>
      exact Routine.HasConstant.of_withoutLines hoperands Constant.isText_of_withoutLines
    | closure index captures =>
      obtain ⟨q, hget, hlength, hcaptures⟩ := hoperands
      rw [Routine.withoutLines_code, Code.getElem?_withoutLines] at hget
      obtain ⟨q, hget', rfl⟩ := Constant.routine_of_withoutLines hget
      exact ⟨q, hget', hlength.trans q.withoutLines_upvalueCount, fun j c hc => (hcaptures j c hc).of_withoutLines⟩
    | _ => exact hoperands
  · rw [Routine.withoutLines_eq] at hvalues
    cases i <;> exact hvalues

namespace Routine

variable {r p : Routine} {owner : Option String} {index : Nat}

theorem result?_withoutLines (r : Routine) (i : Instruction) :
    i.result? r.withoutLines.code.constants = i.result? r.code.constants := by
  cases i with
  | constant index =>
    rw [Instruction.result?, Instruction.result?, withoutLines_code, Code.getElem?_withoutLines]
    cases r.code.constants[index]? with
    | none => rfl
    | some c => cases c <;> rfl
  | _ => rfl

theorem Layout.of_withoutLines {shape} (h : r.withoutLines.Layout shape) : r.Layout shape := by
  have hsize : r.withoutLines.code.size = r.code.size := by
    rw [withoutLines_code, Code.size, Code.size, Code.withoutLines_bytes]
  have hboundary : ∀ {offset}, r.withoutLines.code.Boundary offset ↔ r.code.Boundary offset := by
    intro offset
    rw [withoutLines_code, Code.boundary_withoutLines]
  have hafter : ∀ i σ, Instruction.after r.withoutLines.code.constants σ i = i.after r.code.constants σ := by
    intro i σ
    rw [Instruction.after, result?_withoutLines]
    rfl
  obtain ⟨hsplits, hpos, hwhole, hentry, hproper, hallowed, hnear, hfar, hback, hconstructs⟩ := h
  rw [hsize] at hsplits hpos
  refine ⟨hboundary.mp hsplits, hpos, fun offset hoffset hlt => ?_, ?_,
    fun offset i hi => hproper offset i (at_withoutLines.mpr hi),
    fun offset i hi => (hallowed offset i (at_withoutLines.mpr hi)).of_withoutLines, fun offset i target hi ht => ?_,
    fun offset i target hi ht => ?_, fun offset distance hi => hback offset distance (at_withoutLines.mpr hi),
      fun hobject => ?_⟩
  · obtain ⟨i, hi, hle⟩ := hwhole offset (hboundary.mpr hoffset) (hsize.symm ▸ hlt)
    rw [withoutLines_code, Code.instructionAt?_withoutLines] at hi
    exact ⟨i, hi, hsize ▸ hle⟩
  · rw [← r.withoutLines_head.2]
    exact hentry
  · have hstep := hnear offset i target (at_withoutLines.mpr hi) ht
    rwa [hsize, hafter] at hstep
  · have hstep := hfar offset i target (at_withoutLines.mpr hi) ht
    rwa [hboundary, hsize, hafter] at hstep
  · obtain ⟨name, hname⟩ := hconstructs (r.withoutLines_kind.trans hobject)
    exact ⟨name, at_withoutLines.mp hname⟩

theorem Careful.of_withoutLines (h : r.withoutLines.Careful owner) : r.Careful owner := by
  obtain ⟨howner, ⟨shape, hlayout⟩, hbelongs, is, hlists⟩ := h
  rw [withoutLines_code] at hlists
  rw [withoutLines_kind] at hbelongs
  exact ⟨r.withoutLines_owner ▸ howner, ⟨shape, hlayout.of_withoutLines⟩,
    fun offset i hi => hbelongs offset i (at_withoutLines.mpr hi), is, Code.lists_of_withoutLines hlists⟩

theorem nested_of_withoutLines
    (h : ∀ (index : Nat) q, r.withoutLines.code.constants[index]? = some (.routine q) → q.Nested owner) :
    ∀ (index : Nat) q, r.code.constants[index]? = some (.routine q) → q.Nested owner := by
  intro index q hget p hp
  have hget' : r.withoutLines.code.constants[index]? = some (.routine q.withoutLines) := by
    rw [withoutLines_code, Code.getElem?_withoutLines, hget]
    rfl
  obtain ⟨hcareful, hkind⟩ := h index _ hget' _ hp.withoutLines
  rw [withoutLines_kind] at hkind
  exact ⟨hcareful.of_withoutLines, hkind⟩

end Routine

theorem Member.Codes.of_withoutLines {r : Routine} {is}
    (h : m.Codes r.withoutLines.code.constants is) : m.Codes r.code.constants is := by
  rw [Routine.withoutLines_code] at h
  cases m with
  | field x value =>
    obtain ⟨initial, name, his, hname, hrest⟩ := h
    rw [Code.getElem?_withoutLines] at hname
    exact ⟨initial, name, his, Constant.text_of_withoutLines hname, hrest⟩
  | method x ps body =>
    obtain ⟨index, captures, name, q, his, hname, hq, hkind, hx, harity⟩ := h
    rw [Code.getElem?_withoutLines] at hname hq
    obtain ⟨q', hq', rfl⟩ := Constant.routine_of_withoutLines hq
    refine ⟨index, captures, name, q', his, Constant.text_of_withoutLines hname, hq', ?_, ?_, ?_⟩
    · exact q'.withoutLines_kind.symm.trans hkind
    · exact q'.withoutLines_head.1.symm.trans hx
    · exact q'.withoutLines_head.2.symm.trans harity

theorem ObjectUnit.Codes.of_withoutLines {unit : ObjectUnit} {code} {r : Routine}
    (h : unit.Codes path code r.withoutLines) : unit.Codes path code r := by
  obtain ⟨⟨name, parents, hhead, hname, hparents⟩, hmembers, hlists, hunit, hr, hcareful, hnested⟩ := h
  rw [Routine.withoutLines_code] at hlists hname hparents
  rw [Code.getElem?_withoutLines] at hname
  refine ⟨⟨name, parents, hhead, Constant.text_of_withoutLines hname, hparents.imp ?_⟩,
    hmembers.imp fun m is hm => hm.of_withoutLines, Code.lists_of_withoutLines hlists, hunit.of_withoutLines,
    r.withoutLines_head.1 ▸ hr, hcareful.of_withoutLines, Routine.nested_of_withoutLines hnested⟩
  rintro path is ⟨index, his, hget⟩
  rw [Code.getElem?_withoutLines] at hget
  exact ⟨index, his, Constant.text_of_withoutLines hget⟩

/-! ### Compiled units -/

/-- A script that compiles has a tree, from which its code is generated. -/
theorem exists_generate_of_compileScript {name : String} {r : Routine} (hr : compileScript name source = .ok r) :
    ∃ (kinds : List TokenKind) (script : Declarations), Derives true .declarations script kinds ∧
      script.generate name = .ok r.withoutLines ∧ r.Logged := by
  obtain ⟨kinds, script, hscan, h⟩ := derives_of_compileScript hr
  have hcompile := compileScript_of_derives name hscan h
  cases hgenerate : script.generate name with
  | error m =>
    rw [hgenerate] at hcompile
    obtain ⟨errors, herrors⟩ := hcompile
    cases herrors.symm.trans hr
  | ok r0 =>
    rw [hgenerate] at hcompile
    obtain ⟨r', hr', rfl, hlogged⟩ := hcompile
    cases hr'.symm.trans hr
    exact ⟨kinds, script, h, hgenerate, hlogged⟩

theorem codes_of_compileScript {name : String} {r : Routine} (hr : compileScript name source = .ok r) :
    Declarations.Codes r := by
  obtain ⟨kinds, script, h, hgenerate, -⟩ := exists_generate_of_compileScript hr
  have hcodes := Declarations.codes_of_generate h hgenerate
  exact ⟨hcodes.isUnit.of_withoutLines, hcodes.careful.of_withoutLines, Routine.nested_of_withoutLines hcodes.nested⟩

theorem exists_generate_of_compileObject {kinds} {unit : ObjectUnit} {r : Routine}
    (hr : compileObject path source = .ok r) (hscan : Scans source kinds) (h : unit.Derives kinds) :
    ∃ code, unit.generate path = .ok (code, r.withoutLines) ∧ r.Logged := by
  have hcompile := compileObject_of_derives path hscan h
  cases hgenerate : unit.generate path with
  | error m =>
    rw [hgenerate] at hcompile
    obtain ⟨errors, herrors⟩ := hcompile
    cases herrors.symm.trans hr
  | ok result =>
    obtain ⟨code, r0⟩ := result
    rw [hgenerate] at hcompile
    obtain ⟨r', hr', rfl, hlogged⟩ := hcompile
    cases hr'.symm.trans hr
    exact ⟨code, rfl, hlogged⟩

theorem codes_of_compileObject {kinds} {unit : ObjectUnit} {r : Routine}
    (hr : compileObject path source = .ok r) (hscan : Scans source kinds) (h : unit.Derives kinds) :
    ∃ code, unit.generate path = .ok (code, r.withoutLines) ∧ unit.Codes path code r := by
  obtain ⟨code, hgenerate, -⟩ := exists_generate_of_compileObject hr hscan h
  exact ⟨code, hgenerate, (ObjectUnit.codes_of_generate h hgenerate).of_withoutLines⟩

theorem exists_codes_of_compileObject {r : Routine} (hr : compileObject path source = .ok r) :
    ∃ (unit : ObjectUnit) (code : UnitCode), unit.Codes path code r := by
  obtain ⟨kinds, unit, hscan, h⟩ := derives_of_compileObject hr
  obtain ⟨code, -, hcodes⟩ := codes_of_compileObject hr hscan h
  exact ⟨unit, code, hcodes⟩

theorem Routine.Careful.within {owner} {r : Routine} (h : r.Careful owner)
    (hnested : ∀ (index : Nat) q, r.code.constants[index]? = some (.routine q) → q.Nested owner) (hq : r.Within q) :
    q.Careful owner := by
  cases hq with
  | self => exact h
  | inside hget hwithin => exact (hnested _ _ hget q hwithin).1

theorem Routine.Careful.verified {owner} {r : Routine} (h : r.Careful owner)
    (hnested : ∀ (index : Nat) q, r.code.constants[index]? = some (.routine q) → q.Nested owner) : r.Verified :=
  fun _ hq => (h.within hnested hq).layout

theorem logged_of_compileScript {name : String} {r : Routine} (h : compileScript name source = .ok r) : r.Logged := by
  obtain ⟨kinds, script, -, -, hlogged⟩ := exists_generate_of_compileScript h
  exact hlogged

theorem logged_of_compileObject {r : Routine} (h : compileObject path source = .ok r) : r.Logged := by
  obtain ⟨kinds, unit, hscan, hderives⟩ := derives_of_compileObject h
  obtain ⟨code, -, hlogged⟩ := exists_generate_of_compileObject h hscan hderives
  exact hlogged

theorem isUnit_of_compileScript {name : String} {r : Routine} (h : compileScript name source = .ok r) :
    r.IsUnit .script := (codes_of_compileScript h).isUnit

theorem isUnit_of_compileObject {r : Routine} (h : compileObject path source = .ok r) : r.IsUnit .object := by
  obtain ⟨unit, code, hcodes⟩ := exists_codes_of_compileObject h
  exact hcodes.isUnit

theorem verified_of_compileScript {name : String} {r : Routine} (h : compileScript name source = .ok r) :
    r.Verified := (codes_of_compileScript h).careful.verified (codes_of_compileScript h).nested

theorem verified_of_compileObject {r : Routine} (h : compileObject path source = .ok r) : r.Verified := by
  obtain ⟨unit, code, hcodes⟩ := exists_codes_of_compileObject h
  exact hcodes.careful.verified hcodes.nested

end Mudscript
