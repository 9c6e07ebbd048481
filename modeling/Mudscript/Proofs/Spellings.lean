import Mudscript.Proofs.Respelling

/-!
# Two spellings of one meaning

A compound assignment is short for the assignment of a combined value, and the bare name of a property is
short for reading it from the receiver. The short and the long spelling are compiled by different parts of
the compiler, and to the same code. In a compound assignment the name is looked up once instead of twice,
and the second time it is found where it was found the first time. A bare name enters the pool before the
receiver is loaded instead of behind it, and loading the receiver does not change the pool.
-/

namespace Mudscript

open Compile (Access)
open Scopes Generate

/-! ### A name that is looked up twice -/

namespace Scope

variable {x : String} {s s' : Scope} {outer outer' : List Scope} {index : Nat}

theorem markCaptured_markCaptured (s : Scope) (slot : Nat) :
    (s.markCaptured slot).markCaptured slot = s.markCaptured slot := by
  have hlength : (s.markCaptured slot).locals.length = s.locals.length := List.length_modify _ _ _
  unfold markCaptured at hlength ⊢
  simp only [hlength, List.modify_modify_eq]
  rfl

theorem captureFrom_again (hx : x ≠ "") (h : s.captureFrom x outer = (.ok (some index), s', outer')) :
    s'.captureFrom x outer' = (.ok (some index), s', outer') := by
  induction outer generalizing s s' outer' index with
  | nil => cases h
  | cons e outer ih =>
    rcases captureFrom_eq_some h with ⟨slot, hslot, hadd, rfl⟩ | ⟨hslot, above, e', outer1, hinner, hadd, rfl⟩
    · have hslot' := ((e.markCaptured_touched slot).locals.slot?_eq x).trans hslot
      rw [captureFrom, hslot']
      dsimp only
      rw [addCapture_of_findIdx? (findIdx?_of_addCapture hadd), markCaptured_markCaptured]
      rfl
    · have hslot' := ((captureFrom_eq_ok hx hinner).1.touched.locals.slot?_eq x).trans hslot
      rw [captureFrom, hslot']
      dsimp only
      rw [ih hinner]
      dsimp only
      rw [addCapture_of_findIdx? (findIdx?_of_addCapture hadd)]
      rfl

/-- A name that is not found leaves everything as it is, whatever function looks for it. -/
theorem captureFrom_none (h : (s.captureFrom x outer).1 = .ok none) (s' : Scope) :
    s'.captureFrom x outer = (.ok none, s', outer) := by
  induction outer generalizing s s' with
  | nil => rfl
  | cons e outer ih =>
    cases hresult : s.captureFrom x (e :: outer) with
    | mk found rest =>
      obtain ⟨s1, outer1⟩ := rest
      rw [hresult] at h
      obtain rfl : found = .ok none := h
      obtain ⟨_, e', outer2, hinner, _⟩ := captureFrom_eq_none hresult
      have hslot : e.slot? x = .ok none := by
        rw [captureFrom] at hresult
        cases hslot : e.slot? x with
        | error fault => rw [hslot] at hresult; cases hresult
        | ok found =>
          cases found with
          | none => rfl
          | some slot =>
            rw [hslot] at hresult
            rcases hadd : s.addCapture ⟨true, slot⟩ with ⟨_ | _, _⟩ <;> simp only [hadd] at hresult <;> cases hresult
      rw [captureFrom, hslot]
      dsimp only
      rw [ih (by rw [hinner]) e]

end Scope

theorem Draft.addConstant_again {d d' : Draft} {k : Constant} {index : Nat} (hk : k.key? ≠ none)
    (h : d.addConstant k = (.ok index, d')) : d'.addConstant k = (.ok index, d') := by
  have hentry : d'.pooled? k = some index := by
    obtain ⟨found, hfound, heq⟩ | ⟨-, -, heq⟩ | ⟨-, -, heq⟩ := d.addConstant_cases k <;> cases h.symm.trans heq
    · exact hfound
    · obtain ⟨key, hkey⟩ := Option.ne_none_iff_exists'.mp hk
      rw [pushConstant_some hkey, pooled?, hkey]
      simp
  rw [addConstant, hentry]

namespace Scopes

variable {x : String} {σ σ' : Scopes}

theorem upvalue?_again {index : Nat} (hx : x ≠ "") (h : σ.upvalue? x = (.ok (some index), σ')) :
    σ'.upvalue? x = (.ok (some index), σ') := by
  unfold upvalue? at h
  cases hresult : σ.current.captureFrom x σ.enclosing with
  | mk found rest =>
    rw [hresult] at h
    cases h
    rw [upvalue?, Scope.captureFrom_again hx hresult]

theorem upvalue?_none (h : (σ.upvalue? x).1 = .ok none) (henclosing : σ'.enclosing = σ.enclosing) :
    σ'.upvalue? x = (.ok none, σ') := by
  rw [upvalue?, henclosing, Scope.captureFrom_none h, ← henclosing]

end Scopes

namespace Generate

variable {x : String} {access : Access} {σ σ' : Scopes}

theorem resolve_of_free (hslot : σ.current.slot? x = .ok none) (hfree : (σ.upvalue? x).1 = .ok none) :
    resolve x σ = (pool (.text x) >>= fun index => get >>= fun σ =>
      pure (if σ.inObject then .property index else .global index)) σ := by
  rw [resolve_apply, hslot, upvalue?_none hfree rfl]

theorem resolve_again (hσ : σ.Settled) (hx : x ≠ "") (h : resolve x σ = .ok (access, σ')) :
    resolve x σ' = .ok (access, σ') := by
  have hresolves := resolves_of_resolve h
  have hslot := (hresolves.performs hσ hx).marks.slot?_eq x
  -- The second time, a name without a variable finds the entry it has got the first time.
  have hpooled : ∀ {index σ1}, σ.current.slot? x = .ok none → σ.upvalue? x = (.ok none, σ1) →
      σ1.pool? (.text x) = some (index, σ') → resolve x σ' = .ok (access, σ') := by
    intro index σ1 hnone hfound hpool
    have hfree : (σ.upvalue? x).1 = .ok none := by rw [hfound]
    obtain rfl : σ1 = σ := by
      rw [upvalue?_none hfree rfl] at hfound
      cases hfound
      rfl
    unfold pool? at hpool
    split at hpool
    · rename_i d hadd
      cases hpool
      have hadd' := Draft.addConstant_again (k := .text x) (Option.some_ne_none _) hadd
      have hpool : pool (.text x) σ1 = .ok (index, σ1.withDraft d) := by rw [pool_apply, hadd]
      have hpool' : pool (.text x) (σ1.withDraft d) = .ok (index, σ1.withDraft d) := by
        rw [pool_apply, show (σ1.withDraft d).current.draft.addConstant _ = _ from hadd']
        rfl
      rw [resolve_of_free hnone hfree, bind_eq_of_ok hpool] at h
      have hfree' := congrArg Prod.fst (upvalue?_none hfree rfl : (σ1.withDraft d).upvalue? x = _)
      rw [resolve_of_free (hslot.trans hnone) hfree', bind_eq_of_ok hpool']
      exact h
    · cases hpool
  cases hresolves with
  | local_ => exact h
  | upvalue hnone hfound => rw [resolve_apply, hslot, hnone, upvalue?_again hx hfound]
  | property hnone hfound hpool => exact hpooled hnone hfound hpool
  | global hnone hfound hpool => exact hpooled hnone hfound hpool

end Generate

/-! ### Compound assignments -/

/-- A compound assignment, and the assignment of the combined value. -/
inductive Expands (bound : List String) : Expression → Expression → Prop
  | intro {x op combine e} : IsName x →
      op.combines? = some combine → Expands bound (.assign x op e) (.assign x .set (.binary combine (.name x) e))

theorem Generate.onName_of_resolve {x : String} {access : Access} {σ σ' : Scopes} (h : resolve x σ = .ok (access, σ'))
    (hkind : access.isProperty = false) (variable_ : Access → Generate (List Instruction))
    (property : Nat → Generate (List Instruction)) : onName x variable_ property σ = variable_ access σ' := by
  unfold onName
  rw [bind_eq_of_ok h]
  cases access with
  | property => cases hkind
  | local_ | upvalue | global => rfl

theorem expands_sound : Respelling.Sound Expands none := by
  rintro bound _ _ (@⟨x, op, combine, e, hx, hop⟩) σ hσ
  cases hresult : resolve x σ with
  | error m =>
    show (onName x _ _ σ).toOption = (onName x _ _ σ).toOption
    unfold onName
    rw [bind_eq_of_error hresult, bind_eq_of_error hresult]
  | ok result =>
    obtain ⟨access, σ1⟩ := result
    obtain ⟨hresolves, _, ht, _⟩ := Ensures.resolve hx.1 hσ.toTidy _ _ hresult
    have hkind : access.isProperty = false := by
      cases hresolves with
      | property _ _ _ hobject => exact absurd (ht.inObject_eq.symm.trans hobject) nofun
      | local_ | upvalue | global => rfl
    have hagain := resolve_again hσ.toSettled hx.1 hresult
    have hname : (Expression.name x).code none σ1 = .ok ([access.get], σ1) := onName_of_resolve hagain hkind _ _
    show (onName x _ _ σ).toOption = (onName x _ _ σ).toOption
    rw [onName_of_resolve hresult hkind, onName_of_resolve hresult hkind]
    have hcombined : (Expression.binary combine (.name x) e).code none σ1
        = (e.code none >>= fun right => pure ([access.get] ++ right ++ [combine.operation])) σ1 := bind_eq_of_ok hname
    have hcode : ∀ right, op.code [access.get] right access.set
        = AssignmentOperator.code .set [access.get] ([access.get] ++ right ++ [combine.operation]) access.set := by
      intro right
      rw [AssignmentOperator.code, hop, AssignmentOperator.code, AssignmentOperator.combines?]
      simp
    rw [bind_congr hcombined, bind_assoc]
    simp only [hcode, pure_bind]

/-- The tokens of a compound assignment, and those of its expansion. -/
inductive Expansion : List TokenKind → List TokenKind → Prop
  | intro {x ts} {op : AssignmentOperator} {combine} : op.combines? = some combine →
      Expansion (.name x :: .symbol op.symbol :: ts)
        (.name x :: .symbol .equal :: .name x :: .symbol combine.symbol :: .symbol .leftParen ::
          (ts ++ [.symbol .rightParen]))

theorem Derives.expansion {x combine ts} {e : Expression} (hx : IsName x)
    (he : Derives true (.expression .assignment) e ts) :
    Derives true (.expression .assignment) (.assign x .set (.binary combine (.name x) e))
      (.name x :: .symbol .equal :: .name x :: .symbol combine.symbol :: .symbol .leftParen ::
        (ts ++ [.symbol .rightParen])) := by
  have hlevel : Precedence.assignment.rank ≤ combine.precedence.rank ∧ combine.precedence.rank ≤ Precedence.call.rank ∧
      combine.precedence.tighter.rank ≤ Precedence.primary.rank := by
    cases combine <;> decide
  exact @Derives.assign _ x .set _ _ hx
    (.loosen hlevel.1 (.binary (.loosen hlevel.2.1 (.name hx)) (.loosen hlevel.2.2 (.group he))))

theorem expands_writes : Respelling.Writes Expands Expansion := by
  intro bound f t t' ts hr h
  induction h with
  | group _ ih =>
    obtain ⟨_, hts, hd⟩ := ih hr
    exact ⟨_, (hts.snoc _).keep, .group hd⟩
  | tighter _ ih =>
    obtain ⟨_, hts, hd⟩ := ih hr
    exact ⟨_, hts, .tighter hd⟩
  | assign hx h =>
    obtain ⟨_, hop⟩ := hr
    exact ⟨_, .of (.intro hop), .expansion hx h⟩
  | _ => nomatch hr

/-- A compound assignment to a variable compiles to the code of its expansion. The text with the tokens of the expansion
in place of its own stands for the expanded script. -/
theorem compound_is_expansion : (∀ {x : String} {op : AssignmentOperator} {combine : BinaryOperator} {e : Expression}
      {ts : List TokenKind}, IsName x →
      op.combines? = some combine → Derives true (.expression .assignment) e ts →
      Derives true (.expression .assignment) (.assign x op e) (.name x :: .symbol op.symbol :: ts) ∧
      Derives true (.expression .assignment) (.assign x .set (.binary combine (.name x) e))
        (.name x :: .symbol .equal :: .name x :: .symbol combine.symbol :: .symbol .leftParen ::
          (ts ++ [.symbol .rightParen]))) ∧
    ∀ {script script' : Declarations} {ts : List TokenKind}, Declarations.Alike Expands [] script script' →
      Derives true .declarations script ts →
      (∃ ts', Rewrites Expansion ts ts' ∧ Derives true .declarations script' ts') ∧
      ∀ {ts' : List TokenKind} {name source source' : String},
        Derives true .declarations script' ts' → Scans source ts → Scans source' ts' →
        (compileScript name source).toOption.map Routine.withoutLines
          = (compileScript name source').toOption.map Routine.withoutLines :=
  ⟨fun hx _ he => ⟨.assign hx he, .expansion hx he⟩,
    fun h hscript => compileScript_alike h expands_sound expands_writes hscript⟩

/-- A function with one parameter that returns a function. -/
theorem Derives.returnsFunction {x ts} {e : Expression} (hx : IsName x)
    (he : Derives true (.expression .assignment) e ts) :
    Derives true .function ([x], .cons (.statement (.return_ (.some (.lambda []
        (.cons (.statement (.expression e)) .nil))))) .nil)
      ([.symbol .leftParen, .name x, .symbol .rightParen, .symbol .leftBrace, .keyword .return_, .keyword .function,
        .symbol .leftParen, .symbol .rightParen, .symbol .leftBrace] ++ ts ++
        [.symbol .semicolon, .symbol .rightBrace, .symbol .semicolon, .symbol .rightBrace]) := by
  have hinner := Derives.function .noParameters (.declaration (.statement (.expression he)) .noDeclarations)
  have hreturn := Derives.return_ (.someClause (.loosen (by decide) (.lambda hinner)))
  have hall := Derives.function (.someParameters (@Derives.lastParameter _ x none hx))
    (.declaration (.statement hreturn) .noDeclarations)
  simpa [optionalType] using hall

set_option maxRecDepth 20000 in
/-- A variable of a function that the function inside assigns to. -/
theorem compound_is_expansion_captured :
    (compileScript "main" "int f(a){return function(){a-=nil;};}").toOption.isSome = true ∧
    (compileScript "main" "int f(a){return function(){a-=nil;};}").toOption.map Routine.withoutLines
      = (compileScript "main" "int f(a){return function(){a=a-(nil);};}").toOption.map Routine.withoutLines := by
  have hname : IsName "a" := by decide
  obtain ⟨hspellings, hscripts⟩ := compound_is_expansion
  obtain ⟨hshort, hlong⟩ := @hspellings "a" .subtract .subtract _ _ hname rfl (.loosen (by decide) (.literal .nil))
  have hcontext : ∀ {e ts}, Derives true (.expression .assignment) e ts → Derives true .declarations _ _ := fun he =>
    .declaration (@Derives.functionDeclaration _ .int "f" _ _ _ (by decide) (.returnsFunction hname he)) .noDeclarations
  refine ⟨by cbv, (hscripts ?_ (hcontext hshort)).2 (hcontext hlong) (scans_iff.mpr (by cbv)) (scans_iff.mpr (by cbv))⟩
  exact .cons (.function (.cons (.statement (.return_ (.some (.lambda (.cons (.statement (.expression
    (.replace ⟨hname, rfl⟩))) .same))))) .same)) .same

/-! ### Bare names -/

namespace Scope

variable {x : String}

theorem slot?_of_not_mem {s : Scope} (h : x ∉ s.names) : s.slot? x = .ok none := by
  have hnone : s.locals.dropWhile (·.name ≠ x) = [] := by
    refine List.dropWhile_eq_nil_iff.mpr fun l hl => decide_eq_true fun heq => ?_
    exact h (List.mem_map.mpr ⟨l, hl, heq⟩)
  rw [slot?, hnone]

theorem captureFrom_of_not_mem {outer : List Scope} (h : x ∉ outer.flatMap names) (s : Scope) :
    (s.captureFrom x outer).1 = .ok none := by
  induction outer generalizing s with
  | nil => rfl
  | cons e outer ih =>
    rw [List.flatMap_cons, List.mem_append, not_or] at h
    rw [captureFrom, slot?_of_not_mem h.1]
    dsimp only
    rw [captureFrom_none (ih h.2 e) e]

theorem captureFrom_withDraft (s : Scope) (d : Draft) (outer : List Scope) :
    ({ s with draft := d } : Scope).captureFrom x outer = ((s.captureFrom x outer).1,
      { (s.captureFrom x outer).2.1 with draft := d }, (s.captureFrom x outer).2.2) := by
  have hadd : ∀ c, ({ s with draft := d } : Scope).addCapture c
      = ((s.addCapture c).1, { (s.addCapture c).2 with draft := d }) := by
    intro c
    unfold addCapture
    dsimp only
    split
    · rfl
    · split <;> rfl
  cases outer with
  | nil => rfl
  | cons e outer =>
    rw [captureFrom, captureFrom]
    split
    · rfl
    · rw [hadd]
    · split
      · rfl
      · rfl
      · rw [hadd]

end Scope

namespace Generate

variable {x path : String} {bound : List String} {σ σ' : Scopes}

theorem toOption_receiver (σ : Scopes) :
    (receiver σ).toOption = match σ.current.slot? receiverName, σ.upvalue? receiverName with
      | .ok (some slot), _ => some ([.getLocal slot], σ)
      | .ok none, (.ok (some index), σ') => some ([.getUpvalue index], σ')
      | _, _ => none := by
  unfold receiver
  cases hresult : resolve receiverName σ with
  | ok result =>
    obtain ⟨access, σ'⟩ := result
    rw [bind_eq_of_ok hresult]
    cases resolves_of_resolve hresult with
    | local_ hslot =>
      rw [hslot]
      rfl
    | upvalue hnone hfound | property hnone hfound | global hnone hfound =>
      rw [hnone, hfound]
      rfl
  | error m =>
    rw [bind_eq_of_error hresult]
    rw [resolve_apply] at hresult
    split
    · rename_i hslot
      rw [hslot] at hresult
      cases hresult
    · rename_i hslot hfound
      rw [hslot, hfound] at hresult
      cases hresult
    · rfl

theorem receiver_withDraft (σ : Scopes) (d : Draft) :
    (receiver (σ.withDraft d)).toOption = (receiver σ).toOption.map fun r => (r.1, r.2.withDraft d) := by
  have hup : (σ.withDraft d).upvalue? receiverName
      = ((σ.upvalue? receiverName).1, (σ.upvalue? receiverName).2.withDraft d) := by
    unfold upvalue?
    rw [show (σ.withDraft d).current = { σ.current with draft := d } from rfl, Scope.captureFrom_withDraft]
    rfl
  rw [toOption_receiver, toOption_receiver, hup, show (σ.withDraft d).current.slot? _
    = σ.current.slot? receiverName from rfl]
  generalize σ.current.slot? receiverName = slot
  obtain ⟨found, σ'⟩ := σ.upvalue? receiverName
  rcases slot with _ | _ | _ <;> rcases found with _ | _ | _ <;> rfl

theorem draft_of_receiver {r} (hσ : σ.Settled) (h : receiver σ = .ok (r, σ')) : σ'.current.draft = σ.current.draft := by
  have hreceiver := toOption_receiver σ
  rw [h] at hreceiver
  split at hreceiver
  · cases hreceiver
    rfl
  · rename_i hfound
    cases hreceiver
    exact (performs_of_upvalue? hσ (by decide) hfound).2.1
  · cases hreceiver

theorem pool_receiver {α : Type} (hσ : σ.Settled) (c : Constant) (k : Nat → List Instruction → Generate α) :
    ((pool c >>= fun index => receiver >>= k index) σ).toOption
      = ((receiver >>= fun this => pool c >>= fun index => k index this) σ).toOption := by
  have hpool := pool_apply c σ
  match hadd : σ.current.draft.addConstant c with
  | (.error fault, d) =>
    rw [hadd] at hpool
    rw [bind_eq_of_error hpool]
    cases hreceiver : receiver σ with
    | error m => rw [bind_eq_of_error hreceiver]; rfl
    | ok r =>
      have hpool' := pool_apply c r.2
      rw [draft_of_receiver hσ hreceiver, hadd] at hpool'
      rw [bind_eq_of_ok hreceiver, bind_eq_of_error hpool']
  | (.ok index, d) =>
    rw [hadd] at hpool
    rw [bind_eq_of_ok hpool]
    have hsame := receiver_withDraft σ d
    cases hreceiver : receiver σ with
    | error m =>
      cases hreceiver' : receiver (σ.withDraft d) with
      | error m' => rw [bind_eq_of_error hreceiver, bind_eq_of_error hreceiver']; rfl
      | ok r => rw [hreceiver, hreceiver'] at hsame; cases hsame
    | ok r =>
      cases hreceiver' : receiver (σ.withDraft d) with
      | error m => rw [hreceiver, hreceiver'] at hsame; cases hsame
      | ok r' =>
        rw [hreceiver, hreceiver'] at hsame
        cases hsame
        have hpool' := pool_apply c r.2
        rw [draft_of_receiver hσ hreceiver, hadd] at hpool'
        rw [bind_eq_of_ok hreceiver, bind_eq_of_ok hreceiver', bind_eq_of_ok hpool']

theorem onName_of_not_mem {variable_} (hσ : σ.View (some path) bound)
    (hx : IsName x) (hfree : x ∉ bound) (property : Nat → Generate (List Instruction)) :
    (onName x variable_ property σ).toOption = ((Expression.this.code (some path) >>= fun this => pool (.text x) >>=
      fun name => property name >>= fun is => pure (this ++ is)) σ).toOption := by
  have hvisible : x ∉ σ.visible := by
    intro hmem
    have hmem := hσ.names hmem
    simp only [List.mem_cons] at hmem
    rcases hmem with rfl | rfl | hmem
    · exact hx.1 rfl
    · exact absurd hx (by decide)
    · exact hfree hmem
  rw [visible, List.flatMap_cons, List.mem_append, not_or] at hvisible
  have hobject : σ.inObject = true := hσ.inObject_eq
  have hthis : Expression.this.code (some path) σ = receiver σ := by
    show (if σ.inObject = true then receiver else throw .thisOutsideObject : Generate (List Instruction)) σ = _
    rw [if_pos hobject]
  rw [bind_congr hthis, ← pool_receiver hσ.toSettled (.text x)]
  unfold onName
  rw [bind_congr (resolve_of_free (Scope.slot?_of_not_mem hvisible.1) (Scope.captureFrom_of_not_mem hvisible.2 _))]
  cases hpool : pool (.text x) σ with
  | error m => rw [bind_eq_of_error (bind_eq_of_error hpool), bind_eq_of_error hpool]
  | ok r =>
    have hobject' : r.2.inObject = true := (Carries.name x σ hσ _ _ hpool).inObject_eq
    have haccess : ((pool (.text x) >>= fun index => get >>= fun σ =>
        pure (if σ.inObject then Access.property index else .global index) : Generate Access)) σ
        = .ok (.property r.1, r.2) := by
      rw [bind_eq_of_ok hpool]
      show Except.ok (if r.2.inObject = true then Access.property r.1 else .global r.1, r.2) = _
      rw [if_pos hobject']
    rw [bind_eq_of_ok haccess, bind_eq_of_ok hpool]

end Generate

/-- A bare name that is not bound, and the same with the receiver spelled out. -/
inductive Qualifies (bound : List String) : Expression → Expression → Prop
  | read {x} : IsName x → x ∉ bound → Qualifies bound (.name x) (.property .this x)
  | call {x a} : IsName x → x ∉ bound → Qualifies bound (.callName x a) (.invoke .this x a)
  | assign {x op e} : IsName x → x ∉ bound → Qualifies bound (.assign x op e) (.assignProperty .this x op e)

theorem qualifies_sound (path : String) : Respelling.Sound Qualifies (some path) := by
  rintro bound _ _ (⟨hx, hfree⟩ | ⟨hx, hfree⟩ | ⟨hx, hfree⟩) σ hσ
  · exact (onName_of_not_mem hσ hx hfree _).trans rfl
  · exact (onName_of_not_mem hσ hx hfree _).trans rfl
  · refine (onName_of_not_mem hσ hx hfree _).trans ?_
    simp only [bind_assoc, pure_bind]
    rfl

/-- The token of a name, and those of the property of the receiver. -/
inductive Qualification : List TokenKind → List TokenKind → Prop
  | intro {x} : Qualification [.name x] [.keyword .this, .symbol .arrow, .name x]

theorem qualifies_writes : Respelling.Writes Qualifies Qualification := by
  intro bound f t t' ts hr h
  have hthis : Derives true (.expression .call) .this [.keyword .this] := .loosen (by decide) .this
  induction h with
  | group _ ih =>
    obtain ⟨_, hts, hd⟩ := ih hr
    exact ⟨_, (hts.snoc _).keep, .group hd⟩
  | tighter _ ih =>
    obtain ⟨_, hts, hd⟩ := ih hr
    exact ⟨_, hts, .tighter hd⟩
  | name hx =>
    cases hr
    exact ⟨_, .of .intro, .property hx hthis⟩
  | callName hx h =>
    cases hr
    exact ⟨_, .append (.of Qualification.intro) (.refl _), .invoke hx hthis h⟩
  | assign hx h =>
    cases hr
    exact ⟨_, .append (.of Qualification.intro) (.refl _), .assignProperty hx hthis h⟩
  | _ => nomatch hr

/-- A name in an object unit that is no variable compiles to the code of the property of the receiver, read, called
or assigned to, and the receiver may be spelled out in front of it wherever it stands. -/
theorem bare_name_is_property : (∀ {x : String}, IsName x →
      Derives true (.expression .call) (.property .this x) [.keyword .this, .symbol .arrow, .name x] ∧
      (∀ {a : Arguments} {ts : List TokenKind}, Derives true .arguments a ts →
        Derives true (.expression .primary) (.invoke .this x a)
          (.keyword .this :: .symbol .arrow :: .name x :: .symbol .leftParen :: (ts ++ [.symbol .rightParen]))) ∧
      ∀ {op : AssignmentOperator} {e : Expression} {ts : List TokenKind}, Derives true (.expression .assignment) e ts →
        Derives true (.expression .assignment) (.assignProperty .this x op e)
          (.keyword .this :: .symbol .arrow :: .name x :: .symbol op.symbol :: ts)) ∧
    ∀ {unit unit' : ObjectUnit} {ts : List TokenKind}, unit.Alike Qualifies unit' → unit.Derives ts →
      (∃ ts', Rewrites Qualification ts ts' ∧ unit'.Derives ts') ∧
      ∀ {ts' : List TokenKind} {path source source' : String},
        unit'.Derives ts' → Scans source ts → Scans source' ts' →
        (compileObject path source).toOption.map Routine.withoutLines
          = (compileObject path source').toOption.map Routine.withoutLines := by
  refine ⟨fun hx => ?_, fun h hunit => compileObject_alike h qualifies_sound qualifies_writes hunit⟩
  have hthis : Derives true (.expression .call) .this [.keyword .this] := .loosen (by decide) .this
  exact ⟨.property hx hthis, .invoke hx hthis, .assignProperty hx hthis⟩

set_option maxRecDepth 20000 in
/-- A method whose parameter hides one property and not the other. -/
theorem bare_name_is_property_method :
    (compileObject "a" "int n;int f(x){return function(){n+=x;};}").toOption.isSome = true ∧
    (compileObject "a" "int n;int f(x){return function(){n+=x;};}").toOption.map Routine.withoutLines
      = (compileObject "a" "int n;int f(x){return function(){this->n+=x;};}").toOption.map Routine.withoutLines := by
  have hname : IsName "x" := by decide
  obtain ⟨hspellings, hunits⟩ := bare_name_is_property
  have hvalue : Derives true (.expression .assignment) (.name "x") [.name "x"] := .loosen (by decide) (.name hname)
  have hshort := @Derives.assign _ "n" .add _ _ (by decide) hvalue
  have hlong := @(hspellings (x := "n") (by decide)).2.2 .add _ _ hvalue
  have hrespelled : Expression.Alike Qualifies ([] ++ (["x"] ++ [])) _ _ :=
    .replace (@Qualifies.assign _ "n" .add (.name "x") (by decide) (by decide))
  have hcontext : ∀ {e ts}, Derives true (.expression .assignment) e ts → ObjectUnit.Derives ⟨[], _⟩ _ := fun he =>
    ⟨_, rfl, @DerivesMembers.fields .int _ _ _ _ (.lastVariable (x := "n") (by decide) .noInitializer)
      (@DerivesMembers.method .int "f" _ _ _ _ _ (by decide) (.returnsFunction hname he) .nil)⟩
  refine ⟨by cbv, (hunits ?_ (hcontext hshort)).2 (hcontext hlong) (scans_iff.mpr (by cbv)) (scans_iff.mpr (by cbv))⟩
  exact ⟨rfl, .cons (.field .same) (.cons (.method (.cons (.statement (.return_ (.some (.lambda (.cons
    (.statement (.expression hrespelled)) .same))))) .same)) .nil)⟩

end Mudscript
