import Mudscript.Proofs.Coding.Basic

/-!
# The code of trees

What generated code is like, construct by construct, and then for all trees by induction over their
derivations.
-/

namespace Mudscript

open Compile (Access)
open Scopes Generate List

variable {index name : Nat} {q : Routine}

variable {σ0 σ1 : Scopes}

section

variable {owner : Option String} {σ σ' : Scopes} {is js : List Instruction} {n : Nat}

/-! ### Operators -/

theorem UnaryOperator.operates (op : UnaryOperator) :
    op.operation.operates = true ∧ op.operation.taken = 1 ∧ op.operation.given = 1 := by
  cases op <;> exact ⟨rfl, rfl, rfl⟩

theorem UnaryOperator.uses (op : UnaryOperator) (σ : Scopes) : σ.Uses op.operation := .bare (by cases op <;> rfl)

theorem BinaryOperator.operates (op : BinaryOperator) :
    op.operation.operates = true ∧ op.operation.taken = 2 ∧ op.operation.given = 1 := by
  cases op <;> exact ⟨rfl, rfl, rfl⟩

theorem BinaryOperator.uses (op : BinaryOperator) (σ : Scopes) : σ.Uses op.operation := .bare (by cases op <;> rfl)

namespace Scopes

theorem Coded.unary (h : σ.Coded owner is (n + 1) σ') (op : UnaryOperator) :
    σ.Coded owner (is ++ [op.operation]) (n + 1) σ' := by
  obtain ⟨hoperates, htaken, hgiven⟩ := op.operates
  have hcoded := Coded.operation (i := op.operation) (n := n) (htaken.symm ▸ h) hoperates (op.uses σ')
  rwa [hgiven] at hcoded

theorem Computes.binary (h : σ.Computes owner is (n + 2)) (op : BinaryOperator) :
    σ.Computes owner (is ++ [op.operation]) (n + 1) := by
  obtain ⟨hoperates, htaken, hgiven⟩ := op.operates
  have hcomputes := Computes.operation (i := op.operation) (n := n) (htaken.symm ▸ h) hoperates (op.uses σ)
  rwa [hgiven] at hcomputes

theorem Computes.assign {base old value} {store : Instruction} (op : AssignmentOperator)
    (hbase : σ.Computes owner base n) (hold : σ.Computes owner (base ++ old) (n + 1))
    (hvalue : σ.Computes owner value 1) (hoperates : store.operates = true) (htaken : store.taken = n + 1)
    (hgiven : store.given = 1) (hstore : σ.Uses store) : σ.Computes owner (base ++ op.code old value store) 1 := by
  have hstored : ∀ {is}, σ.Computes owner is (n + 1) → σ.Computes owner (is ++ [store]) 1 := by
    intro is h
    have hcomputes := Computes.operation (i := store) (n := 0) (by rw [htaken, Nat.zero_add]; exact h) hoperates hstore
    rwa [hgiven] at hcomputes
  unfold AssignmentOperator.code
  split
  · rename_i combine _
    have hcombined := hstored ((hold.append hvalue).binary combine)
    simpa using hcombined
  · have hplain := hstored (hbase.append hvalue)
    simpa using hplain

theorem Coded.skips {skip} (h : σ.Coded owner is 1 σ1) (h' : σ1.Coded owner js 1 σ') (hskip : ∀ i ∈ skip, σ'.Uses i)
    (hoperands : Operands is 1 → Operands js 1 → Operands (is ++ (skip ++ .pop :: js)) 1) :
    σ.Coded owner (is ++ (skip ++ .pop :: js)) 1 σ' := by
  have huses := forall_mem_append.mp (h.append h').computes.uses
  refine ⟨h.performs.trans h'.performs, h'.tidy, ?_, ?_⟩
  · simp only [forall_mem_append, forall_mem_cons]
    exact ⟨huses.1, hskip, .bare rfl, huses.2⟩
  · exact hoperands (h.computes.follows h'.follows h'.tidy).operands h'.computes.operands

theorem Coded.assignProperty {value} (h : σ.Coded owner is 1 σ1)
    (op : AssignmentOperator) (hname : σ1.Names name) (hvalue : σ1.Coded owner value 1 σ') :
    σ.Coded owner (is ++ op.code [.dup, .getProperty name] value (.setProperty name)) 1 σ' := by
  have hbase := h.computes.follows hvalue.follows hvalue.tidy
  have hname := hname.retains hvalue.follows.retains
  have hdup := hbase.operation (i := .dup) (n := 0) rfl (.bare rfl)
  have hold := hdup.operation (i := .getProperty name) (n := 1) rfl hname.getProperty
  rw [append_assoc] at hold
  exact ⟨h.performs.trans hvalue.performs,
    hbase.assign op hold hvalue.computes rfl rfl rfl ⟨trivial, hname.lt, trivial, hname.isText, trivial⟩⟩

end Scopes

namespace Generate

variable {a : Arguments} {code : Generate (List Instruction)}

abbrev Encodes (owner : Option String) (n : Nat) (code : Generate (List Instruction)) : Prop :=
  ∀ σ, σ.Tidy owner → Ensures code σ fun is σ' => σ.Coded owner is n σ'

theorem Ensures.counted (h : Encodes owner a.length code) (hσ : σ.Tidy owner) :
    Ensures (Generate.counted a code) σ fun r σ' => σ.Coded owner r.1 a.length σ' ∧ r.2 = a.length ∧ r.2 < 256 := by
  refine (h σ hσ).bind fun is σ' hcode => .ite (fun hle => .pure ⟨hcode, rfl, ?_⟩) fun _ => .throw
  exact Nat.lt_succ_of_le hle

theorem Ensures.conjunction (h : σ0.Coded owner is 1 σ) (hright : Encodes owner 1 code) :
    Ensures (Generate.conjunction code) σ fun js σ' => σ0.Coded owner (is ++ js) 1 σ' := by
  refine (hright σ h.tidy).bind fun js σ' h' => (Ensures.forward _).bind ?_
  rintro _ _ ⟨rfl, hlt, rfl⟩
  have hskip : ∀ i ∈ [.jumpIfFalse (Code.length js + 1)], σ'.Uses i :=
    forall_mem_singleton.mpr ⟨trivial, .branch hlt⟩
  exact .pure (h.skips h' hskip .conjunction)

theorem Ensures.disjunction (h : σ0.Coded owner is 1 σ) (hright : Encodes owner 1 code) :
    Ensures (Generate.disjunction code) σ fun js σ' => σ0.Coded owner (is ++ js) 1 σ' := by
  refine (hright σ h.tidy).bind fun js σ' h' => (Ensures.forward _).bind ?_
  rintro _ _ ⟨rfl, hlt, rfl⟩
  have hskip : ∀ i ∈ [.jumpIfFalse 3, .jump (Code.length js + 1)], σ'.Uses i :=
    forall_mem_cons.mpr ⟨⟨trivial, .branch (by decide)⟩, forall_mem_singleton.mpr ⟨trivial, .jump hlt⟩⟩
  exact .pure (h.skips h' hskip .disjunction)

theorem Ensures.calling {call : Nat → Instruction} (hcallee : σ0.Coded owner is 1 σ) (h : Encodes owner a.length code)
    (htaken : (call a.length).taken = a.length + 1) (hgiven : (call a.length).given = 1)
    (hcall : ∀ σ', σ.Retains σ' → a.length < 256 → (call a.length).operates = true ∧ σ'.Uses (call a.length)) :
    Ensures (do
      let r ← Generate.counted a code
      return r.1 ++ [call r.2]) σ fun js σ' => σ0.Coded owner (is ++ js) 1 σ' := by
  refine (Ensures.counted h hcallee.tidy).bind ?_
  rintro ⟨js, count⟩ σ' ⟨hcode, rfl, hlt⟩
  obtain ⟨hoperates, huses⟩ := hcall σ' hcode.performs.follows.retains hlt
  have hcoded := Coded.operation (i := call a.length) (n := 0)
    (by rw [htaken, Nat.zero_add, Nat.add_comm]; exact hcallee.append hcode) hoperates huses
  rw [append_assoc, hgiven] at hcoded
  exact .pure hcoded

theorem Ensures.application (hcallee : σ0.Coded owner is 1 σ) (h : Encodes owner a.length code) :
    Ensures (Generate.application (Generate.counted a code)) σ fun js σ' => σ0.Coded owner (is ++ js) 1 σ' :=
  .calling hcallee h rfl rfl fun _ _ hlt => ⟨rfl, trivial, hlt, trivial, trivial, trivial⟩

theorem Ensures.invocation (hreceiver : σ0.Coded owner is 1 σ) (hname : σ.Names name)
    (h : Encodes owner a.length code) :
    Ensures (Generate.invocation name (Generate.counted a code)) σ fun js σ' => σ0.Coded owner (is ++ js) 1 σ' :=
  .calling hreceiver h rfl rfl fun _ hretains hlt =>
    have hname := hname.retains hretains
    ⟨rfl, trivial, ⟨hname.lt, hlt⟩, trivial, hname.isText, trivial⟩

theorem Ensures.superCall {x : String} (hσ : σ.Tidy owner) (h : Encodes owner a.length code) :
    Ensures (Generate.superCall owner x (Generate.counted a code)) σ fun is σ' => σ.Coded owner is 1 σ' := by
  refine .ite (fun _ => .bind (Q := fun _ _ => False) .throw fun _ _ => False.elim) fun howner => ?_
  refine (Ensures.name x hσ).bind ?_
  rintro name σ1 ⟨he1, ht1, hname⟩
  refine (Ensures.receiver ht1).bind ?_
  rintro _ σ2 ⟨below, rfl, hbelow⟩
  refine (Ensures.counted h hbelow.tidy).bind ?_
  rintro ⟨code, count⟩ σ3 ⟨hcode, rfl, hlt⟩
  refine (Ensures.receiver hcode.tidy).bind ?_
  rintro _ σ4 ⟨above, rfl, habove⟩
  have hall := (hbelow.append hcode).append habove
  have hname := hname.retains hall.follows.retains
  have howner : σ4.current.owner ≠ none := by
    rw [hall.tidy.owner_eq]
    exact fun hnone => howner (Option.isNone_iff_eq_none.mpr hnone)
  have hsuper := hall.operation (i := .super) rfl ⟨trivial, trivial, trivial, trivial, howner⟩
  have hcoded := Coded.operation (i := .superInvoke name a.length) (n := 0)
    (by rw [show 0 + (Instruction.superInvoke name a.length).taken = 1 + a.length + 1 from by
          simp only [Instruction.taken]; omega]
        exact hsuper) rfl ⟨trivial, ⟨hname.lt, hlt⟩, trivial, hname.isText, howner⟩
  rw [append_assoc _ [Instruction.super]] at hcoded
  exact .pure (.after he1 hcoded)

end Generate

/-! ### Locals -/

namespace Scopes

theorem Tidy.declare? {x : String} (h : σ.Tidy owner) (hx : IsName x) (hdeclare : σ.declare? x = some σ') :
    σ'.Tidy owner := by
  have hσ' := (declare?_eq_some hdeclare).2
  have hr : σ.Retains σ' := by
    rw [hσ']
    exact ⟨rfl, rfl, prefix_rfl, fun _ _ h => h, Scope.Touched.refl_all _⟩
  refine ⟨declare?_settled h.toSettled hdeclare, hr.owner_eq.trans h.owner_eq, hr.inObject_eq.trans h.inObject_eq,
    fun hkind => h.script (hr.kind_eq.symm.trans hkind), fun slot hslot => ?_, ?_⟩
  · rw [hσ'] at hslot
    change (x :: σ.current.names).reverse[slot]? = _ at hslot
    rw [reverse_cons] at hslot
    by_cases hlt : slot < σ.current.names.reverse.length
    · rw [List.getElem?_append_left hlt] at hslot
      exact h.unshadowed slot hslot
    · rw [List.getElem?_append_right (Nat.le_of_not_lt hlt)] at hslot
      exact absurd (mem_singleton.mp (mem_of_getElem? hslot)).symm hx.2
  · rw [hσ']
    exact h.routines

theorem define_names (σ : Scopes) : σ.define.current.names = σ.current.names := by
  show σ.current.define.names = σ.current.names
  unfold Scope.define
  split
  · rfl
  · split
    · rfl
    · rename_i heq
      simp [Scope.names, heq]

theorem Tidy.define (h : σ.Tidy owner) (hs : σ.define.Settled) : σ.define.Tidy owner :=
  h.of_names hs (define_retains σ).1 (define_names σ) (define_retains σ).2

structure Stated (owner : Option String) (σ : Scopes) (ps : List Piece) (σ' : Scopes) : Prop where
  declares : σ.Declares σ'
  lays : σ'.Lays owner ps

theorem Stated.append {ps qs} (h : σ.Stated owner ps σ1) (h' : σ1.Stated owner qs σ') : σ.Stated owner (ps ++ qs) σ' :=
  ⟨h.declares.trans h'.declares, (h.lays.retains h'.declares.follows.retains h'.lays.tidy).append h'.lays⟩

theorem Lays.snoc {ps i} (h : σ.Lays owner ps) (hs : σ.Suits i) :
    σ.Lays owner (ps ++ written [i]) := h.append (.plain h.tidy (forall_mem_singleton.mpr hs))

/-- Declarations are generated in a block, and the locals they declare are on the stack in the end. -/
structure States (owner : Option String) (l : Option LoopSite) (σ : Scopes) (ps : List Piece) (σ' : Scopes) : Prop
    extends σ.Stated owner ps σ' where
  runs : σ.InBlock l → Runs l σ ps σ'

theorem States.append {l : Option LoopSite} {ps qs} (h : σ.States owner l ps σ1)
    (h' : σ1.States owner (l.map (·.after (Pieces.size ps))) qs σ') : σ.States owner l (ps ++ qs) σ' := by
  refine ⟨h.toStated.append h'.toStated, fun hblock => ?_⟩
  exact (h.runs hblock).append (h'.runs (h.declares.inBlock hblock _)) h.declares h'.declares
    fun site hsite => h.declares.around_eq (hblock site hsite)

/-- The closure of a named function becomes the local that it may itself capture. -/
theorem Coded.runs_localFunction {l} {x : String} {captures}
    (h : σ1.define.Coded owner [.closure index captures] 1 σ') (hσ : σ.Settled) (hdepth : 0 < σ.current.depth)
    (hdeclare : σ.declare? x = some σ1) (hq : σ'.current.draft.constants[index]? = some (.routine q))
    (hkind : q.kind = .function) (hname : q.name ≠ "") : Runs l σ (written [.closure index captures]) σ' := by
  intro r w b captured n n' hr hobject _ hcaptured hn hn'
  obtain ⟨hdeclares, hlength⟩ := declares_local hσ hdepth hdeclare (.refl (declare?_settled hσ hdeclare))
  have hf := hdeclares.follows.trans h.follows
  have hlength' : σ'.current.locals.length = n + 1 := by rw [h.performs.length_eq, hlength, hn]
  have hkind' : σ'.current.kind ≠ .object := by
    rw [hf.current.kind_eq]
    exact hobject
  rw [hn', hlength']
  refine ((h.computes.uses _ (mem_singleton_self _)).traces_closure h.tidy.toSettled hr
    (hlength' ▸ sees_locals hkind') (hn ▸ hσ.locals_pos) (Nat.le_refl n)
    (.inr ⟨rfl, rfl, q, hq, hkind, hname⟩)).weaken (hf.current.shape_flows captured n n) ?_
  exact ⟨rfl, Nat.le_refl _, subset_rfl, .inl rfl⟩

end Scopes

namespace Generate

variable {x : String} {value : Generate (List Instruction)}

theorem Ensures.declare (hx : IsName x) (hσ : σ.Tidy owner) :
    Ensures (Generate.declare x) σ fun _ σ' => σ.declare? x = some σ' ∧ σ'.Tidy owner := by
  intro _ σ' h
  have hdeclare : σ.declare? x = some σ' := by
    rw [declare_apply] at h
    rw [Scopes.declare?]
    cases hresult : σ.current.declare x with
    | error fault =>
      rw [hresult] at h
      cases h
    | ok s =>
      rw [hresult] at h
      cases h
      rfl
  exact ⟨hdeclare, hσ.declare? hx hdeclare⟩

theorem Ensures.globalVariable (hσ : σ.Tidy owner) (hglobal : σ.AtGlobalLevel) (hvalue : Encodes owner 1 value) :
    Ensures (do
      let name ← Generate.pool (.text x)
      return (← value) ++ [.defineGlobal name]) σ fun is σ' => ∀ l, σ.States owner l (written is) σ' := by
  refine (Ensures.name x hσ).bind ?_
  rintro name σ1 ⟨he, ht, hname⟩
  refine (hvalue σ1 ht).bind fun is σ' h => .pure fun l => ?_
  have hname := hname.retains h.follows.retains
  have hcoded := Coded.after he h
  refine ⟨⟨hcoded.performs.toDeclares, ?_⟩, fun _ => hcoded.pushes.runs_defineGlobal hcoded.performs hname.isText⟩
  rw [written_append]
  exact h.computes.lays.snoc ⟨hname.lt, trivial, hname.isText, h.tidy.owner_eq.trans (hσ.script hglobal.2)⟩

theorem Ensures.variable_ (hx : IsName x) (hσ : σ.Tidy owner) (hcan : σ.CanDeclare) (hvalue : Encodes owner 1 value) :
    Ensures (Generate.variable_ x value) σ fun is σ' => ∀ l, σ.States owner l (written is) σ' := by
  refine .look (.ite (fun hglobal => .globalVariable hσ hglobal hvalue) fun hlocal => ?_)
  have hpos := depth_pos_of_not_atGlobalLevel hσ.toSettled hcan hlocal
  refine (Ensures.declare hx hσ).bind ?_
  rintro _ σ1 ⟨hdeclare, ht1⟩
  refine (hvalue σ1 ht1).bind fun is σ2 h => .modify (.pure fun l => ?_)
  have hdeclares := (declares_local hσ.toSettled hpos hdeclare h.performs).1
  exact ⟨⟨hdeclares, h.computes.lays.retains (define_retains σ2).1 (h.tidy.define hdeclares.settled)⟩,
    fun _ => runs_localVariable hσ.toSettled hpos hdeclare h.performs h.pushes⟩

def Closes (σ : Scopes) (kind : RoutineKind) (name : String) (arity : Nat) (is : List Instruction) : Prop :=
  ∃ index captures, ∃ q : Routine, is = [.closure index captures] ∧
    σ.current.draft.constants[index]? = some (.routine q) ∧ q.kind = kind ∧ q.name = name ∧ q.arity = arity

theorem Ensures.functionVariable {arity : Nat} (hx : IsName x) (hσ : σ.Tidy owner) (hcan : σ.CanDeclare)
    (hvalue : ∀ σ, σ.Tidy owner → Ensures value σ fun is σ' => σ.Coded owner is 1 σ' ∧ Closes σ' .function x arity is) :
    Ensures (Generate.functionVariable x value) σ fun is σ' => ∀ l, σ.States owner l (written is) σ' := by
  refine .look (.ite (fun hglobal => .globalVariable hσ hglobal fun σ hσ => (hvalue σ hσ).mono fun _ _ h => h.1)
    fun hlocal => ?_)
  have hpos := depth_pos_of_not_atGlobalLevel hσ.toSettled hcan hlocal
  refine (Ensures.declare hx hσ).bind ?_
  rintro _ σ1 ⟨hdeclare, ht1⟩
  have hdeclares := (declares_local hσ.toSettled hpos hdeclare (.refl ht1.toSettled)).1
  refine .modify ((hvalue _ (ht1.define hdeclares.settled)).mono ?_)
  rintro _ σ' ⟨h, index, captures, q, rfl, hq, hkind, hname, -⟩ l
  exact ⟨⟨hdeclares.trans h.performs.toDeclares, h.computes.lays⟩,
    fun _ => h.runs_localFunction hσ.toSettled hpos hdeclare hq hkind (hname ▸ hx.1)⟩

end Generate

/-! ### Blocks -/

namespace Scopes

theorem performs_leaveBlock (hσ : σ.Settled) (h : σ.beginBlock.Declares σ1) :
    σ.Performs σ1.leaveBlock ∧ ∃ front, σ1.current.names = front ++ σ1.leaveBlock.current.names := by
  obtain ⟨old, hold, hsplit, hdrop⟩ := deeperThan_of_block hσ h.follows
  have hdepth : σ1.current.depth - 1 = σ.current.depth := by
    have heq : σ1.current.depth = σ.current.depth + 1 := h.follows.current.depth_eq
    omega
  have hleave : σ1.leaveBlock = σ1.onCurrent fun s => { s with depth := σ.current.depth, locals := old } := by
    unfold leaveBlock
    rw [hdepth, ← hdrop]
    rfl
  have hc := h.follows.current
  have hf : σ.Follows σ1.leaveBlock := by
    rw [hleave]
    exact ⟨⟨hc.kind_eq, hc.name_eq, hc.owner_eq, hc.arity_eq, rfl, ⟨[], old, rfl, hold, fun _ h => nomatch h⟩,
      hc.captures, hc.constants⟩, h.follows.enclosing⟩
  have hfits := forall_fits_cons.mp h.settled.fits
  refine ⟨⟨⟨hσ.follows hf ?_ ?_, hf⟩, ?_⟩, ?_⟩
  · rw [hleave]
    exact h.settled.chained.of_captures_eq rfl
  · rw [hleave]
    refine forall_fits_cons.mpr ⟨⟨?_, hfits.1.captures, hfits.1.pooled⟩, hfits.2⟩
    show old.length ≤ maxSlots
    rw [← hold.length_eq]
    exact (forall_fits_cons.mp hσ.fits).1.locals
  · rw [hleave]
    exact hold.length_eq.symm
  · rw [hleave]
    refine ⟨(σ1.current.deeperThan σ.current.depth).map Local.name, ?_⟩
    rw [Scope.names, hsplit, map_append]
    rfl

theorem Tidy.beginBlock (h : σ.Tidy owner) : σ.beginBlock.Tidy owner :=
  h.of_names (beginBlock_settled h.toSettled) ⟨rfl, rfl, prefix_rfl, fun _ _ h => h,
    Scope.Touched.refl_all _⟩ rfl rfl

structure Performed (owner : Option String) (σ : Scopes) (ps : List Piece) (σ' : Scopes) : Prop where
  performs : σ.Performs σ'
  lays : σ'.Lays owner ps

theorem Coded.performed (h : σ.Coded owner is n σ') : σ.Performed owner (written is) σ' :=
  ⟨h.performs, h.computes.lays⟩

theorem Performed.append {ps qs} (h : σ.Performed owner ps σ1)
    (h' : σ1.Performed owner qs σ') : σ.Performed owner (ps ++ qs) σ' :=
  ⟨h.performs.trans h'.performs, (h.lays.retains h'.performs.follows.retains h'.lays.tidy).append h'.lays⟩

theorem Performed.nil (h : σ.Tidy owner) : σ.Performed owner [] σ := ⟨(Performs.refl h.toSettled), .nil h⟩

theorem Performed.plain {ps} (h : σ.Performed owner ps σ') (is : List Instruction)
    (hs : ∀ i ∈ is, σ'.Suits i) : σ.Performed owner (ps ++ written is) σ' :=
  ⟨h.performs, h.lays.append (.plain h.lays.tidy hs)⟩

theorem Performed.leave {ps} (h : σ.Performed owner ps σ') (ls : List Local) :
    σ.Performed owner (ps ++ written (ls.map Local.leave)) σ' := by
  refine h.plain _ fun i hi => ?_
  obtain ⟨l, _, rfl⟩ := mem_map.mp hi
  unfold Local.leave
  split
  · exact .bare rfl
  · exact .bare rfl

/-- A statement is generated, and the locals are as before in the end. -/
structure Acts (owner : Option String) (l : Option LoopSite) (σ : Scopes) (ps : List Piece) (σ' : Scopes) : Prop
    extends σ.Performed owner ps σ' where
  runs : Runs l σ ps σ'

theorem Acts.nil (h : σ.Tidy owner) (l : Option LoopSite) : σ.Acts owner l [] σ := ⟨.nil h, runs_nil l σ⟩

theorem Acts.states {l ps} (h : σ.Acts owner l ps σ') : σ.States owner l ps σ' :=
  ⟨⟨h.performs.toDeclares, h.lays⟩, fun _ => h.runs⟩

theorem Coded.acts_pop (h : σ.Coded owner is 1 σ') (l : Option LoopSite) :
    σ.Acts owner l (written (is ++ [.pop])) σ' := by
  refine ⟨?_, h.pushes.runs_pop h.performs⟩
  rw [written_append]
  exact h.performed.plain _ (forall_mem_singleton.mpr (.bare rfl))

theorem Coded.acts_ret (h : σ.Coded owner is 1 σ') (l : Option LoopSite) :
    σ.Acts owner l (written (is ++ [.ret])) σ' := by
  refine ⟨?_, h.pushes.runs_ret h.performs⟩
  rw [written_append]
  exact h.performed.plain _ (forall_mem_singleton.mpr (.bare rfl))

end Scopes

namespace Generate

theorem Ensures.endBlock {l ps} (hσ : σ.Tidy owner) (h : σ.beginBlock.States owner l ps σ1) :
    Ensures Generate.endBlock σ1 fun leave σ' => σ.Acts owner l (ps ++ written leave) σ' := by
  obtain ⟨hperforms, front, hnames⟩ := performs_leaveBlock hσ.toSettled h.declares
  have ht := h.lays.tidy
  have htidy : σ1.leaveBlock.Tidy owner := by
    refine ⟨hperforms.settled, ht.owner_eq, ht.inObject_eq, ht.script, fun slot hslot => ?_, ht.routines⟩
    refine ht.unshadowed slot ?_
    rw [hnames, reverse_append, List.getElem?_append_left (List.getElem?_eq_some_iff.mp hslot).1]
    exact hslot
  have hretains : σ1.Retains σ1.leaveBlock :=
    ⟨rfl, rfl, prefix_rfl, fun _ _ h => h, Scope.Touched.refl_all _⟩
  rintro _ _ ⟨⟩
  exact ⟨Performed.leave ⟨hperforms, h.lays.retains hretains htidy⟩ _, runs_block hσ.toSettled h.declares h.runs⟩

/-! ### Jumps -/

theorem Ensures.conditional {condition l consequent alternative} (hσ : σ.Tidy owner)
    (hcondition : Encodes owner 1 condition)
    (hconsequent : ∀ l σ, σ.Tidy owner → Ensures (consequent l) σ (σ.Acts owner l))
    (halternative : ∀ l σ, σ.Tidy owner → Ensures (alternative l) σ (σ.Acts owner l)) :
    Ensures (Generate.conditional condition consequent alternative l) σ (σ.Acts owner l) := by
  refine (hcondition σ hσ).bind fun test σ1 htest => ?_
  refine (hconsequent _ σ1 htest.tidy).bind fun yes σ2 hyes => ?_
  refine (Ensures.forward _).bind ?_
  rintro _ _ ⟨rfl, helse, rfl⟩
  refine (halternative _ σ2 hyes.lays.tidy).bind fun no σ3 hno => ?_
  refine (Ensures.forward _).bind ?_
  rintro _ _ ⟨rfl, hend, rfl⟩
  refine .pure ⟨?_, runs_conditional htest.performs hyes.performs hno.performs htest.pushes hyes.runs hno.runs⟩
  have hbranch := htest.performed.plain [.jumpIfFalse (Pieces.size yes + 4), .pop]
    (forall_mem_cons.mpr ⟨.branch helse, forall_mem_singleton.mpr (.bare rfl)⟩)
  have hskip := (hbranch.append hyes.toPerformed).plain [.jump (Pieces.size no + 1), .pop]
    (forall_mem_cons.mpr ⟨.jump hend, forall_mem_singleton.mpr (.bare rfl)⟩)
  rw [← written_append] at hskip
  exact hskip.append hno.toPerformed

theorem Ensures.optional {clause} (hσ : σ.Tidy owner) (h : ∀ code, clause = some code → Encodes owner 1 code) :
    Ensures (Generate.optional clause) σ fun test σ' =>
      σ.Performs σ' ∧ σ'.Tidy owner ∧ ∀ is, test = some is → σ.Coded owner is 1 σ' := by
  cases clause with
  | none => exact .pure ⟨.refl hσ.toSettled, hσ, nofun⟩
  | some code =>
    refine (h code rfl σ hσ).bind fun is σ' hcode => .pure ⟨hcode.performs, hcode.tidy, ?_⟩
    rintro _ ⟨⟩
    exact hcode

theorem Ensures.stepCode {clause} (test : Option (List Instruction))
    (hσ : σ.Tidy owner) (h : ∀ code, clause = some code → Encodes owner 1 code) :
    Ensures (Generate.stepCode test clause) σ fun r σ' => ∃ step, r = (loopStep test step, loopBack test step) ∧
      σ.Performed owner (written r.1) σ' ∧ σ.Performs σ' ∧ ∀ is, step = some is → σ.Coded owner is 1 σ' := by
  cases clause with
  | none => exact .pure ⟨none, rfl, .nil hσ, .refl hσ.toSettled, nofun⟩
  | some code =>
    refine (h code rfl σ hσ).bind fun step σ' hstep => ?_
    refine (Ensures.backward _).bind ?_
    rintro _ _ ⟨rfl, htest, rfl⟩
    refine (Ensures.forward _).bind ?_
    rintro _ _ ⟨rfl, hbody, rfl⟩
    refine .pure ⟨some step, rfl, ?_, hstep.performs, ?_⟩
    · have hjump := (Performed.nil hσ).plain [.jump (Code.length step + 4)]
        (forall_mem_singleton.mpr (.jump hbody))
      have hloop := (hjump.append hstep.performed).plain [.pop, .loop (testSize test + Code.length step + 7)]
        (forall_mem_cons.mpr ⟨.bare rfl, forall_mem_singleton.mpr (.loop htest)⟩)
      simpa using hloop
    · rintro _ ⟨⟩
      exact hstep

theorem Ensures.aim (exit : Nat) (ps : List Piece) :
    Ensures (Generate.aim exit ps) σ fun is σ' => σ = σ' ∧ is = Pieces.aimed exit ps ∧
      ∀ i ∈ is, .write i ∈ ps ∨ ∃ distance < 65536, i = .jump distance := by
  induction ps with
  | nil => exact .pure ⟨rfl, rfl, nofun⟩
  | cons p ps ih =>
    cases p with
    | write i =>
      refine ih.bind ?_
      rintro is _ ⟨rfl, rfl, hmem⟩
      refine .pure ⟨rfl, rfl, forall_mem_cons.mpr ⟨.inl mem_cons_self, fun j hj => ?_⟩⟩
      exact (hmem j hj).imp_left (mem_cons_of_mem _)
    | break_ =>
      refine (Ensures.forward _).bind ?_
      rintro _ _ ⟨rfl, hlt, rfl⟩
      refine ih.bind ?_
      rintro is _ ⟨rfl, rfl, hmem⟩
      refine .pure ⟨rfl, rfl, forall_mem_cons.mpr ⟨.inr ⟨_, hlt, rfl⟩, fun j hj => ?_⟩⟩
      exact (hmem j hj).imp_left (mem_cons_of_mem _)

theorem Ensures.testCode (rest : Nat) (test : Option (List Instruction)) :
    Ensures (Generate.testCode rest test) σ fun r σ' => σ = σ' ∧ r = (loopTest rest test, loopExit test) ∧
      ∀ is, test = some is → rest + 1 < 65536 := by
  cases test with
  | none => exact .pure ⟨rfl, rfl, nofun⟩
  | some is =>
    refine (Ensures.forward _).bind ?_
    rintro _ _ ⟨rfl, hlt, rfl⟩
    exact .pure ⟨rfl, rfl, fun _ _ => hlt⟩

end Generate

theorem Scopes.Performed.aimed {ps} (h : σ.Performed owner ps σ')
    (hmem : ∀ i ∈ is, .write i ∈ ps ∨ ∃ distance < 65536, i = .jump distance) : σ.Performed owner (written is) σ' := by
  refine ⟨h.performs, .plain h.lays.tidy fun i hi => ?_⟩
  rcases hmem i hi with hpiece | ⟨distance, hlt, rfl⟩
  · exact h.lays.suits i hpiece
  · exact .jump hlt

namespace Generate

theorem Ensures.loop {condition step body} (hσ : σ.Tidy owner)
    (hcondition : ∀ code, condition = some code → Encodes owner 1 code)
    (hstep : ∀ code, step = some code → Encodes owner 1 code)
    (hbody : ∀ l σ, σ.Tidy owner → Ensures (body l) σ (σ.Acts owner (some l))) :
    Ensures (Generate.loop condition step body) σ fun ps σ' => ∀ l, σ.Acts owner l ps σ' := by
  refine (Ensures.optional hσ hcondition).bind ?_
  rintro test σ1 ⟨he1, ht1, htest⟩
  refine (Ensures.stepCode test ht1 hstep).bind ?_
  rintro _ σ2 ⟨step, rfl, hstep, he2, hcoded⟩
  refine .look ((hbody _ σ2 hstep.lays.tidy).bind fun body σ3 hbody => ?_)
  refine (Ensures.backward _).bind ?_
  rintro again _ ⟨rfl, hagain, rfl⟩
  refine (Ensures.testCode _ test).bind ?_
  rintro _ _ ⟨rfl, rfl, hlt⟩
  refine (Ensures.aim _ body).bind ?_
  rintro _ _ ⟨rfl, rfl, hmem⟩
  refine .pure fun l => ⟨?_, runs_loop rfl he1 he2 hbody.performs (fun is his => (htest is his).pushes)
    (fun is his => (hcoded is his).pushes) hbody.runs⟩
  obtain ⟨front, hfront⟩ :
      ∃ front, front = loopTest (Code.length (loopStep test step) + Pieces.size body + 3) test := ⟨_, rfl⟩
  have hparts : σ.Performed owner (written front) σ1 ∧ ∀ i ∈ loopExit test, i = .pop := by
    cases test with
    | none => exact ⟨hfront ▸ ⟨he1, .nil ht1⟩, nofun⟩
    | some is =>
      refine ⟨?_, fun i hi => mem_singleton.mp hi⟩
      rw [hfront, loopTest, written_append]
      exact (htest is rfl).performed.plain _
        (forall_mem_cons.mpr ⟨.branch (hlt is rfl), forall_mem_singleton.mpr (.bare rfl)⟩)
  have hall := ((hparts.1.append hstep).append (hbody.aimed hmem)).plain
    (.loop (loopBack test step + Pieces.size body + 3) :: loopExit test)
    (forall_mem_cons.mpr ⟨.loop hagain, fun i hi => hparts.2 i hi ▸ .bare rfl⟩)
  rw [hfront] at hall
  simpa only [written_append] using hall

/-- A jump out of the blocks of a loop takes their locals off the stack. -/
theorem Ensures.exitLoop (hσ : σ.Tidy owner) (l : Option LoopSite) :
    Ensures (Generate.exitLoop l) σ (σ.Acts owner l) := by
  cases l with
  | none => exact .throw
  | some l =>
    rintro _ _ ⟨⟩
    have hleave := (Performed.nil hσ).leave (σ.current.deeperThan l.depth)
    exact ⟨⟨hleave.performs, hleave.lays.append ⟨hσ, by simp⟩⟩, runs_break l σ⟩

theorem Ensures.continueLoop (hσ : σ.Tidy owner) (l : Option LoopSite) :
    Ensures (Generate.continueLoop l) σ (σ.Acts owner l) := by
  cases l with
  | none => exact .throw
  | some l =>
    have hleave := (Performed.nil hσ).leave (σ.current.deeperThan l.depth)
    refine .bind (Q := fun leave σ' => leave = (σ.current.deeperThan l.depth).map Local.leave ∧ σ = σ') ?_ ?_
    · rintro _ _ ⟨⟩
      exact ⟨rfl, rfl⟩
    · rintro _ _ ⟨rfl, rfl⟩
      refine (Ensures.backward _).bind ?_
      rintro _ _ ⟨rfl, hlt, rfl⟩
      refine .pure ⟨?_, runs_continue l σ⟩
      rw [written_append]
      exact hleave.plain _ (forall_mem_singleton.mpr (.loop hlt))

/-! ### Functions -/

theorem Ensures.parameter {x : String} (hx : IsName x) (h : σ0.TakesParameters σ) (hσ : σ.Tidy owner)
    (hpos : 0 < σ0.current.depth) : Ensures (Generate.parameter x) σ fun _ σ' =>
      σ0.TakesParameters σ' ∧ σ'.Tidy owner ∧ σ'.current.arity = σ.current.arity + 1 := by
  intro _ σ' hresult
  rw [Judged.parameter_apply] at hresult
  split at hresult
  · cases hresult
  · cases hdeclare : σ.countParameter.current.declare x with
    | error fault =>
      rw [hdeclare] at hresult
      cases hresult
    | ok s =>
      rw [hdeclare] at hresult
      cases hresult
      have hdeclare? : σ.countParameter.declare? x = some (σ.countParameter.onCurrent fun _ => s) := by
        rw [Scopes.declare?, hdeclare]
      have htakes := h.parameter hpos hdeclare?
      have hcount : σ.countParameter.Tidy owner := by
        have hfits := forall_fits_cons.mp hσ.fits
        exact hσ.of_names ⟨hσ.depth_nonneg, hσ.depth_le, hσ.rooted, hσ.chained.of_captures_eq rfl,
          forall_fits_cons.mpr ⟨⟨hfits.1.locals, hfits.1.captures, hfits.1.pooled⟩, hfits.2⟩⟩
          ⟨rfl, rfl, prefix_rfl, fun _ _ h => h, Scope.Touched.refl_all _⟩ rfl rfl
      refine ⟨htakes, (hcount.declare? hx hdeclare?).define htakes.settled, ?_⟩
      rw [define_arity]
      show s.arity = _
      rw [Scope.declare_eq_ok hdeclare]
      rfl

theorem Ensures.parameters {ps : List String} (hps : ∀ x ∈ ps, IsName x) (h : σ0.TakesParameters σ)
    (hσ : σ.Tidy owner) (hpos : 0 < σ0.current.depth) : Ensures (ps.forM Generate.parameter) σ fun _ σ' =>
      σ0.TakesParameters σ' ∧ σ'.Tidy owner ∧ σ'.current.arity = σ.current.arity + ps.length := by
  induction ps generalizing σ with
  | nil => exact .pure ⟨h, hσ, rfl⟩
  | cons x ps ih =>
    rw [forall_mem_cons] at hps
    refine (Ensures.parameter hps.1 h hσ hpos).bind ?_
    rintro _ σ1 ⟨h1, ht1, harity⟩
    refine (ih hps.2 h1 ht1).mono ?_
    rintro _ σ2 ⟨h2, ht2, harity2⟩
    refine ⟨h2, ht2, ?_⟩
    rw [harity2, harity, length_cons]
    omega

end Generate

def Pieces.finished (ps : List Piece) : List Instruction := ps.map Piece.instruction ++ [.pushNil, .ret]

namespace Scopes

variable {ps : List Piece}

theorem Lays.suits_finished (h : σ.Lays owner ps) : ∀ i ∈ Pieces.finished ps, σ.Suits i := by
  intro i hi
  rcases mem_append.mp hi with hi | hi
  · obtain ⟨p, hp, rfl⟩ := mem_map.mp hi
    cases p with
    | write i => exact h.suits i hp
    | break_ => exact .jump (Nat.lt_succ_self _)
  · simp only [mem_cons, not_mem_nil, or_false] at hi
    rcases hi with rfl | rfl
    · exact .bare rfl
    · exact .bare rfl

structure Finishes (owner : Option String) (σ : Scopes) (r : Routine) (is : List Instruction) : Prop where
  tidy : σ.Tidy owner
  kind_eq : r.kind = σ.current.kind
  owner_eq : r.owner = σ.current.owner
  constants_eq : r.code.constants = σ.current.draft.constants
  lists : r.code.Lists is
  layout : ∃ shape, r.Layout shape
  suits : ∀ i ∈ is, σ.Suits i

theorem Lays.lists (h : σ.Lays owner ps) : (σ.current.finish (Pieces.encode ps)).code.Lists (Pieces.finished ps) := by
  refine ⟨?_, fun i hi => (h.suits_finished i hi).encodable.of_constants_eq rfl⟩
  show Pieces.encode ps ++ _ ++ _ = _
  rw [Pieces.encode_eq, Pieces.finished, flatMap_append]
  simp

theorem Lays.layout (h : σ'.Lays owner ps) (hd : σ.Declares σ') (hrun : Runs none σ ps σ')
    (hkind : σ.current.kind ≠ .object) (hlength : σ.current.locals.length = σ.current.arity + 1) :
    ∃ shape, (σ'.current.finish (Pieces.encode ps)).Layout shape := by
  have hkind' : σ'.current.kind ≠ .object := hd.follows.current.kind_eq ▸ hkind
  have hpos := hd.settled.locals_pos
  have hbody : Traces (σ'.current.finish (Pieces.encode ps)) .closed 0 (σ.current.shape ∅ _ _) ps
      (σ'.current.shape ∅ _ _) :=
    hrun ⟨rfl, Nat.le_refl _, fun _ _ hc => hc⟩ hkind nofun nofun rfl rfl
  have hentry : (Shape.entry σ'.current.arity).Flows
      (σ.current.shape ∅ σ.current.locals.length σ.current.locals.length) := by
    rw [hlength, ← hd.follows.current.arity_eq]
    exact ⟨rfl, Nat.le_refl _, fun _ hk => hk.elim, .inl rfl⟩
  have hpush : Traces (σ'.current.finish (Pieces.encode ps)) .closed 0 (.entry σ'.current.arity)
      (written (ps.map Piece.instruction ++ [.pushNil]))
      (σ'.current.shape ∅ σ'.current.locals.length (σ'.current.locals.length + 1)) := by
    rw [written_append, hbody.written_eq]
    exact (hbody.weaken hentry (.refl _)).append (.compute (i := .pushNil) hpos (fun _ hk => hk.1) (Nat.le_refl _)
      (fun _ => rfl) trivial (Nat.le_refl _) nofun)
  have hlists := h.lists
  rw [Pieces.finished, show [Instruction.pushNil, .ret] = [.pushNil] ++ [.ret] from rfl, ← append_assoc] at hlists
  refine Traces.layout hpush hlists (Scope.shape_proper hpos (Nat.le_succ _)) ⟨trivial, ?_⟩
    fun hobject => absurd hobject hkind'
  exact (if_neg hkind').mpr (Nat.lt_succ_self _)

theorem Lays.finishes (h : σ'.Lays owner ps) (hlayout : ∃ shape, (σ'.current.finish (Pieces.encode ps)).Layout shape) :
    σ'.Finishes owner (σ'.current.finish (Pieces.encode ps)) (Pieces.finished ps) :=
  ⟨h.tidy, rfl, rfl, rfl, h.lists, hlayout, h.suits_finished⟩

namespace Finishes

variable {r : Routine}

section

variable (h : σ.Finishes owner r is)

include h

theorem routine_eq {entry : Nat} {q' : Routine}
    (hat : r.code.routineAt? entry = some q) (hget : σ.current.draft.constants[entry]? = some (.routine q')) :
    q' = q := by
  rw [Code.routineAt?, h.constants_eq, hget] at hat
  exact Option.some.inj hat

theorem suits_at {offset : Nat} {i} (hi : r.code.At offset i) : σ.Suits i := by
  obtain ⟨front, back, hsplit, _⟩ := (h.lists.at_iff offset i).mp hi
  refine h.suits i ?_
  rw [hsplit]
  exact mem_append_right _ mem_cons_self

theorem careful : r.Careful owner := by
  refine ⟨h.owner_eq.trans h.tidy.owner_eq, h.layout, fun offset i hi => ?_, is, h.lists⟩
  rw [h.kind_eq, ← h.tidy.owner_eq]
  exact (h.suits_at hi).belongs

theorem within {p : Routine} (hp : r.Within p) : p.Careful owner := by
  cases hp with
  | self => exact h.careful
  | inside hget hwithin =>
    rw [h.constants_eq] at hget
    exact (h.tidy.routines _ _ hget p hwithin).1

theorem nested (hkind : r.kind = .function ∨ r.kind = .method) : r.Nested owner := by
  intro p hp
  refine ⟨h.within hp, ?_⟩
  cases hp with
  | self => exact hkind
  | inside hget hwithin =>
    rw [h.constants_eq] at hget
    exact (h.tidy.routines _ _ hget p hwithin).2

theorem assigns (hassigns : r.Assigns index) :
    ∃ x, captureName σ.current σ.enclosing index = some x ∧ x ≠ receiverName := by
  cases hassigns with
  | here hi => exact (h.suits_at hi).minds
  | inside hi hq hc hassigns =>
    obtain ⟨q', hget, hcaptures⟩ := (h.suits_at hi).minds
    rw [← h.routine_eq hq hget] at hassigns
    exact (hcaptures _ _ hc).captured rfl hassigns

end

end Finishes

theorem Tidy.enter {kind} (h : σ.Tidy owner) (hkind : kind = .function ∨ kind = .method) (name : String) :
    (σ.enter kind name owner).beginBlock.Tidy owner := by
  have hobject : (σ.enter kind name owner).inObject = σ.inObject := by rcases hkind with rfl | rfl <;> rfl
  refine Tidy.beginBlock ⟨enter_settled h.toSettled kind name owner, rfl, hobject.trans h.inObject_eq,
    fun hscript => ?_, fun slot hslot => ?_, nofun⟩
  · rcases hkind with rfl | rfl <;> cases hscript
  have hlt := (List.getElem?_eq_some_iff.mp hslot).1
  exact Nat.lt_one_iff.mp hlt

theorem Finishes.minds {r : Routine} (h : σ.Finishes owner r is) (henclosing : σ.enclosing = σ'.current :: σ'.enclosing)
    (ht : σ'.Tidy owner) {j : Nat} {c : Capture} (hc : σ.current.captures.toList[j]? = some c) : c.Minds σ' r j := by
  have hname : r.Assigns j → ∃ x, (if c.fromLocal then (σ'.current.localAt? c.index).map Local.name
      else captureName σ'.current σ'.enclosing c.index) = some x ∧ x ≠ receiverName := by
    intro hassigns
    obtain ⟨x, hx, hne⟩ := h.assigns hassigns
    rw [henclosing] at hx
    obtain ⟨c', hc', hx⟩ := Option.bind_eq_some_iff.mp hx
    rw [← Array.getElem?_toList, hc] at hc'
    cases hc'
    exact ⟨x, hx, hne⟩
  refine ⟨fun hfrom hassigns => ?_, fun hfrom hassigns => ?_⟩
  · obtain ⟨x, hx, hne⟩ := hname hassigns
    rw [if_pos hfrom] at hx
    obtain ⟨l, hget, rfl⟩ := Option.map_eq_some_iff.mp hx
    exact fun hreceiver => hne ((ht.name_eq_iff hget).mpr hreceiver)
  · rw [hfrom] at hname
    exact hname hassigns

end Scopes

namespace Generate

theorem Ensures.routine {kind} {name : String} {ps : List String} {body}
    (hkind : kind = .function ∨ kind = .method) (hσ : σ.Tidy owner) (hps : ∀ x ∈ ps, IsName x)
    (hbody : ∀ σ, σ.Tidy owner → σ.CanDeclare → Ensures body σ (σ.States owner none)) :
    Ensures (Generate.routine kind owner name ps body) σ fun is σ' =>
      σ.Coded owner is 1 σ' ∧ Closes σ' kind name ps.length is := by
  have hentered := hσ.enter hkind name
  refine .modify ((Ensures.parameters hps (.refl hentered.toSettled) hentered (show 0 < 0 + 1 by decide)).bind ?_)
  rintro _ σ1 ⟨htakes, ht1, harity⟩
  have hcan : σ1.CanDeclare := .inr (by rw [htakes.rest]; exact Int.zero_lt_one)
  refine (hbody σ1 ht1 hcan).bind fun code σ2 hcode => .look (.modify ?_)
  -- Back in the function around it
  have hlayout := hcode.lays.layout hcode.declares (hcode.runs nofun)
    (by rw [htakes.rest]; rcases hkind with rfl | rfl <;> exact nofun)
    (by have hcount := htakes.count; exact hcount.trans (Nat.add_comm _ _))
  have hfinishes := hcode.lays.finishes hlayout
  have htouched : List.Forall₂ Scope.Touched (σ.current :: σ.enclosing) σ2.enclosing := by
    have henclosing := hcode.declares.follows.enclosing
    rw [htakes.rest] at henclosing
    exact henclosing
  obtain ⟨henclosing, he, hdraft⟩ := performs_left hσ.toSettled hcode.lays.tidy.toSettled htouched
  have ht : σ2.left.Tidy owner := hσ.performs he fun index q hq => .inl (by rwa [hdraft] at hq)
  have hc := hcode.declares.follows.current
  have hkind2 : σ2.current.kind = kind := hc.kind_eq.trans (by rw [htakes.rest]; rfl)
  refine (Ensures.pool ht fun q hq => ?_).bind ?_
  · cases hq
    exact hfinishes.nested (hkind.imp hkind2.trans hkind2.trans)
  · rintro index σ3 ⟨he3, ht3, hget, hlt⟩
    have hchained := hcode.lays.tidy.chained
    rw [henclosing] at hchained
    have hrefers : ∀ c ∈ σ2.current.captures.toList, c.RefersTo σ2.left.current :=
      fun c hmem => hchained.1 c (Array.mem_def.mpr hmem)
    refine .pure ⟨⟨he.trans he3, .singleton ht3 rfl rfl ⟨fun c hmem => (hrefers c hmem).follows he3.follows.current,
      ⟨hlt, ?_, fun c hmem => ht.toSettled.index_lt (hrefers c hmem)⟩, ?_, trivial, trivial⟩⟩, ?_⟩
    · rw [Code.captureCount, Code.routineAt?]
      rw [show σ3.current.toRoutine.code.constants[index]? = _ from hget]
      exact Array.length_toList
    · exact ⟨_, hget, fun j c hcapture => he3.follows.retains.minds (hfinishes.minds henclosing ht hcapture)⟩
    · refine ⟨index, _, _, rfl, hget, hkind2, hc.name_eq.trans ?_, hc.arity_eq.trans ?_⟩
      · rw [htakes.rest]
        rfl
      · rw [harity]
        exact Nat.zero_add _

end Generate

end

/-! ### All trees -/

def Form.Coded (owner : Option String) : (f : Form) → f.Tree → Prop
  | .expression _, e => Encodes owner 1 (e.code owner)
  | .arguments, a | .argumentList, a => Encodes owner a.length (a.code owner)
  | .parameters, ps | .parameterList, ps => ∀ x ∈ ps, IsName x
  | .function, (ps, body) => (∀ x ∈ ps, IsName x) ∧
      ∀ σ, σ.Tidy owner → σ.CanDeclare → Ensures (body.code owner none) σ (σ.States owner none)
  | .clause, c | .initializer, c => ∀ code, c.code? owner = some code → Encodes owner 1 code
  | .variables, vs => ∀ σ, σ.Tidy owner → σ.CanDeclare →
      Ensures (vs.code owner) σ fun is σ' => ∀ l, σ.States owner l (written is) σ'
  | .statement, s => ∀ l σ, σ.Tidy owner → Ensures (s.code owner l) σ (σ.Acts owner l)
  | .declaration, d => ∀ l σ, σ.Tidy owner → σ.CanDeclare → Ensures (d.code owner l) σ (σ.States owner l)
  | .forInitializer, ds | .declarations, ds => ∀ l σ, σ.Tidy owner → σ.CanDeclare →
      Ensures (ds.code owner l) σ (σ.States owner l)

theorem Literal.coded {owner} (l : Literal) : Encodes owner 1 l.code := by
  have hconstant : ∀ k : Constant, k.IsLiteral → Encodes owner 1 (do return [.constant (← Generate.pool k)]) := by
    intro k hk σ hσ
    refine (Ensures.pool hσ fun q hq => ?_).bind ?_
    · rcases hk with ⟨_, rfl⟩ | ⟨_, rfl⟩ <;> cases hq
    · rintro index σ' ⟨he, ht, hget, hlt⟩
      exact .pure ⟨he, .singleton ht rfl rfl ⟨trivial, hlt, trivial, ⟨k, hget, hk⟩, trivial⟩⟩
  cases l with
  | number n => exact hconstant _ (.inl ⟨_, rfl⟩)
  | text s => exact hconstant _ (.inr ⟨_, rfl⟩)
  | nil | true_ | false_ => exact fun σ hσ => .pure ⟨.refl hσ.toSettled, .singleton hσ rfl rfl (.bare rfl)⟩

theorem Clause.coded {owner} {c : Clause} (h : ∀ code, c.code? owner = Option.some code → Encodes owner 1 code) :
    Encodes owner 1 ((c.code? owner).getD (return [.pushNil])) := by
  intro σ hσ
  cases hcode : c.code? owner with
  | none => exact .pure ⟨.refl hσ.toSettled, .singleton hσ rfl rfl (.bare rfl)⟩
  | some code => exact h code hcode σ hσ

theorem Derives.coded {nearest : Bool} {f : Form} {t : f.Tree} {ts} (h : Derives nearest f t ts)
    (owner : Option String) : f.Coded owner t := by
  induction h with
  | literal l => exact l.coded
  | group _ ih => exact ih
  | name hx =>
    intro σ hσ
    refine Ensures.onName hx.1 hσ (fun access σ' he ht hvalid hkind => .pure ⟨he, hvalid.get ht hkind⟩) ?_
    intro name load σ' h hname
    exact .pure (h.operation (i := .getProperty name) (n := 0) rfl hname.getProperty)
  | callName hx _ ih =>
    intro σ hσ
    refine Ensures.onName hx.1 hσ (fun access σ' he ht hvalid hkind => ?_) ?_
    · have hcallee : σ.Coded owner [access.get] 1 σ' := ⟨he, hvalid.get ht hkind⟩
      exact (Ensures.application hcallee ih).bind fun is σ'' h => .pure h
    · intro name load σ' h hname
      exact Ensures.invocation h hname ih
  | this =>
    intro σ hσ
    refine .look (.ite (fun _ => ?_) fun _ => .throw)
    refine (Ensures.receiver hσ).mono ?_
    rintro _ σ' ⟨load, rfl, h⟩
    exact h
  | superCall _ _ ih => exact fun σ hσ => Ensures.superCall hσ ih
  | lambda _ ih => exact fun σ hσ => (Ensures.routine (.inl rfl) hσ ih.1 ih.2).mono fun is σ' h => h.1
  | call _ _ ih ih' =>
    intro σ hσ
    refine (ih σ hσ).bind fun is σ1 h => ?_
    exact (Ensures.application h ih').bind fun js σ' h' => .pure h'
  | @property _ x _ _ _ ih =>
    intro σ hσ
    refine (ih σ hσ).bind fun is σ1 h => (Ensures.name x h.tidy).bind ?_
    rintro name σ2 ⟨he, ht, hname⟩
    exact .pure ((h.andThen he ht).operation (i := .getProperty name) (n := 0) rfl hname.getProperty)
  | @invoke _ x _ _ _ _ _ _ ih ih' =>
    intro σ hσ
    refine (ih σ hσ).bind fun is σ1 h => (Ensures.name x h.tidy).bind ?_
    rintro name σ2 ⟨he, ht, hname⟩
    exact (Ensures.invocation (h.andThen he ht) hname ih').bind fun js σ' h' => .pure h'
  | tighter _ ih => exact ih
  | @unary op _ _ _ ih => exact fun σ hσ => (ih σ hσ).bind fun is σ' h => .pure (h.unary (n := 0) op)
  | @binary op _ _ _ _ _ _ ih ih' =>
    intro σ hσ
    refine (ih σ hσ).bind fun is σ1 h => (ih' σ1 h.tidy).bind fun js σ2 h' => .pure ?_
    have hall := h.append h'
    exact ⟨hall.performs, hall.computes.binary (n := 0) op⟩
  | and _ _ ih ih' =>
    intro σ hσ
    refine (ih σ hσ).bind fun is σ1 h => ?_
    exact (Ensures.conjunction h ih').bind fun js σ' h' => .pure h'
  | or _ _ ih ih' =>
    intro σ hσ
    refine (ih σ hσ).bind fun is σ1 h => ?_
    exact (Ensures.disjunction h ih').bind fun js σ' h' => .pure h'
  | @assign _ op _ _ hx _ ih =>
    intro σ hσ
    refine Ensures.onName hx.1 hσ (fun access σ1 he ht hvalid hkind => ?_) fun name load σ1 h hname => ?_
    · refine (ih σ1 ht).bind fun is σ' h => .pure ⟨he.trans h.performs, ?_⟩
      have hvalid' := hvalid.follows h.performs.follows
      obtain ⟨hoperates, htaken, hgiven⟩ := Access.Valid.set_operates hkind
      have hbase : σ'.Computes owner [] 0 := .nil h.tidy
      exact hbase.assign op (hvalid'.get h.tidy hkind) h.computes hoperates htaken hgiven
        (hvalid'.set_uses h.tidy hx hkind)
    · exact (ih σ1 h.tidy).bind fun is σ' h' => .pure (h.assignProperty op hname h')
  | @assignProperty _ _ x op _ _ _ _ _ ih ih' =>
    intro σ hσ
    refine (ih σ hσ).bind fun is σ1 h => (Ensures.name x h.tidy).bind ?_
    rintro name σ2 ⟨he, ht, hname⟩
    exact (ih' σ2 ht).bind fun js σ' h' => .pure ((h.andThen he ht).assignProperty op hname h')
  | noArguments => exact fun σ hσ => .pure ⟨.refl hσ.toSettled, .nil hσ⟩
  | someArguments _ ih => exact ih
  | lastArgument _ ih =>
    intro σ hσ
    refine (ih σ hσ).bind fun is σ' h => .pure ?_
    exact h.append ⟨.refl h.tidy.toSettled, .nil h.tidy⟩
  | argument _ _ ih ih' =>
    intro σ hσ
    refine (ih σ hσ).bind fun is σ1 h => (ih' σ1 h.tidy).bind fun js σ' h' => .pure ?_
    have hall := h.append h'
    rwa [Nat.add_comm] at hall
  | noParameters => exact nofun
  | someParameters _ ih => exact ih
  | lastParameter hx => exact forall_mem_singleton.mpr hx
  | parameter hx _ ih => exact forall_mem_cons.mpr ⟨hx, ih⟩
  | function _ _ ih ih' => exact ⟨ih, ih' none⟩
  | noClause | noInitializer => exact fun code hcode => nomatch hcode
  | someClause _ ih | someInitializer _ ih =>
    rintro _ ⟨⟩
    exact ih
  | expression _ ih =>
    intro l σ hσ
    exact (ih σ hσ).bind fun is σ' h => .pure (h.acts_pop l)
  | block _ ih =>
    intro l σ hσ
    refine .modify ((ih l _ hσ.beginBlock (beginBlock_canDeclare hσ.toSettled)).bind fun body σ1 h => ?_)
    exact (Ensures.endBlock hσ h).bind fun leave σ' h' => .pure h'
  | ifThen _ _ ih ih' => exact fun l σ hσ => Ensures.conditional hσ ih ih' fun l σ hσ => .pure (.nil hσ l)
  | ifElse _ _ _ _ ih ih' ih'' => exact fun l σ hσ => Ensures.conditional hσ ih ih' ih''
  | while_ _ _ ih ih' =>
    intro l σ hσ
    refine Ensures.mono (Ensures.loop hσ ?_ (fun _ hcode => nomatch hcode) fun l => ih' (some l)) fun ps σ' h => h l
    rintro _ ⟨⟩
    exact ih
  | noFirst => exact fun l σ hσ _ => .pure (Acts.nil hσ l).states
  | firstVariables _ ih =>
    intro l σ hσ hcan
    refine ((ih σ hσ hcan).bind fun is σ' h => .pure (h l)).bind fun ps σ' h => ?_
    exact .pure (by simpa using h)
  | firstExpression _ ih =>
    intro l σ hσ hcan
    refine ((ih σ hσ).bind (R := σ.States owner l) fun is σ' h => .pure (h.acts_pop l).states).bind fun ps σ' h => ?_
    exact .pure (by simpa using h)
  | for_ _ _ _ _ ih1 ih2 ih3 ih4 =>
    intro l σ hσ
    refine .modify ((ih1 l _ hσ.beginBlock (beginBlock_canDeclare hσ.toSettled)).bind fun first σ1 h1 => ?_)
    refine (Ensures.loop h1.lays.tidy ih2 ih3 fun l => ih4 (some l)).bind fun body σ2 h2 => ?_
    refine (Ensures.endBlock hσ (h1.append (h2 _).states)).bind fun leave σ' h' => .pure h'
  | return_ _ ih =>
    intro l σ hσ
    exact (Clause.coded ih σ hσ).bind fun is σ' h => .pure (h.acts_ret l)
  | break_ => exact fun l σ hσ => Ensures.exitLoop hσ l
  | continue_ => exact fun l σ hσ => Ensures.continueLoop hσ l
  | lastVariable hx _ ih =>
    intro σ hσ hcan
    refine (Ensures.variable_ hx hσ hcan (Clause.coded ih)).bind fun is σ' h => ?_
    exact .pure (by simpa using h)
  | moreVariables hx _ _ ih ih' =>
    intro σ hσ hcan
    refine (Ensures.variable_ hx hσ hcan (Clause.coded ih)).bind fun is σ1 h => ?_
    refine (ih' σ1 (h none).lays.tidy ((h none).declares.canDeclare hcan)).bind fun js σ' h' => .pure fun l => ?_
    rw [written_append]
    exact (h l).append (h' _)
  | functionDeclaration hx _ ih =>
    intro l σ hσ hcan
    exact (Ensures.functionVariable hx hσ hcan fun σ hσ => Ensures.routine (.inl rfl) hσ ih.1 ih.2).bind
      fun is σ' h => .pure (h l)
  | variableDeclaration _ ih => exact fun l σ hσ hcan => (ih σ hσ hcan).bind fun is σ' h => .pure (h l)
  | statement _ ih => exact fun l σ hσ _ => (ih l σ hσ).mono fun ps σ' h => h.states
  | noDeclarations => exact fun l σ hσ _ => .pure (Acts.nil hσ l).states
  | declaration _ _ ih ih' =>
    intro l σ hσ hcan
    refine (ih l σ hσ hcan).bind fun ps σ1 h => ?_
    exact (ih' _ σ1 h.lays.tidy (h.declares.canDeclare hcan)).bind fun qs σ' h' => .pure (h.append h')

end Mudscript
