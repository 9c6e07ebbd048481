import Mudscript.Proofs.Coding.Units

/-!
# Other spellings

A part of a text may be spelled in another way. If the code generated for both spellings is the same
wherever the part can stand, then so is the code of the whole text. What the part stands in is a derivation
that both texts share, up to the tokens of the part, and the names that are bound at the place of the part are
those that the derivation has declared on the way to it.

Generating code may go wrong at different points for two spellings. So only the outcome counts: both go
wrong, or both give the same code and leave the same scopes.
-/

namespace Mudscript

open Scopes Generate List

variable {c : Clause} {script : Declarations} {m : Member} {unit : ObjectUnit}

/-! ### The names in sight -/

namespace Scopes

variable {owner : Option String} {bound bound' : List String} {σ σ' : Scopes} {x : String}

def visible (σ : Scopes) : List String := (σ.current :: σ.enclosing).flatMap Scope.names

/-- In code for the owner, where apart from the receiver only the bound names are in sight. -/
structure View (owner : Option String) (bound : List String) (σ : Scopes) : Prop extends σ.Tidy owner where
  names : σ.visible ⊆ "" :: receiverName :: bound

structure Block (owner : Option String) (bound : List String) (σ : Scopes) : Prop extends σ.View owner bound where
  canDeclare : σ.CanDeclare

theorem names_of_touched {outer outer' : List Scope} (h : List.Forall₂ Scope.Touched outer outer') :
    outer'.flatMap Scope.names = outer.flatMap Scope.names := by
  induction h with
  | nil => rfl
  | cons he _ ih => rw [flatMap_cons, flatMap_cons, he.locals.names_eq, ih]

theorem Performs.visible_eq (h : σ.Performs σ') : σ'.visible = σ.visible := by
  rw [visible, visible, flatMap_cons, flatMap_cons, h.marks.names_eq, names_of_touched h.follows.enclosing]

theorem View.performs (h : σ.View owner bound) (he : σ.Performs σ') (ht : σ'.Tidy owner) : σ'.View owner bound :=
  ⟨ht, he.visible_eq ▸ h.names⟩

theorem View.mono (h : σ.View owner bound) (hle : bound ⊆ bound') : σ.View owner bound' :=
  ⟨h.toTidy, List.Subset.trans h.names (cons_subset_cons _ (cons_subset_cons _ hle))⟩

theorem View.bind (h : σ.View owner bound) (ht : σ'.Tidy owner) (hvisible : σ'.visible = x :: σ.visible) :
    σ'.View owner (x :: bound) := by
  refine ⟨ht, ?_⟩
  rw [hvisible]
  have hnames := h.names
  intro y hy
  rcases mem_cons.mp hy with rfl | hy
  · simp
  · have hmem := hnames hy
    simp only [mem_cons] at hmem ⊢
    tauto

theorem visible_declare? (h : σ.declare? x = some σ') : σ'.visible = x :: σ.visible := by
  obtain ⟨_, rfl⟩ := declare?_eq_some h
  rfl

theorem visible_define (σ : Scopes) : σ.define.visible = σ.visible := by
  show σ.define.current.names ++ _ = _
  rw [define_names]
  rfl

theorem View.beginBlock (h : σ.View owner bound) : σ.beginBlock.Block owner bound :=
  ⟨⟨h.toTidy.beginBlock, h.names⟩, beginBlock_canDeclare h.toSettled⟩

end Scopes

/-! ### Generators with the same outcome -/

namespace Generate

variable {α β : Type} {owner : Option String} {bound ps : List String} {x : String} {V W : Scopes → Prop}
  {g g' : Generate α}
  {k k' : α → Generate β}

/-- Carries scopes of one kind over to scopes of another. -/
def Carries (V W : Scopes → Prop) (g : Generate α) : Prop := ∀ σ, V σ → Ensures g σ fun _ => W

/-- Both go wrong, or both do the same. -/
def Agrees (V : Scopes → Prop) (g g' : Generate α) : Prop := ∀ σ, V σ → (g σ).toOption = (g' σ).toOption

namespace Agrees

theorem refl (V : Scopes → Prop) (g : Generate α) : Agrees V g g := fun _ _ => rfl

theorem mono (h : Agrees W g g') (hle : ∀ σ, V σ → W σ) : Agrees V g g' := fun σ hσ => h σ (hle σ hσ)

theorem bind (hg : Agrees V g g') (hcarries : Carries V W g) (hk : ∀ a, Agrees W (k a) (k' a)) :
    Agrees V (g >>= k) (g' >>= k') := by
  intro σ hσ
  have hsame := hg σ hσ
  cases hresult : g σ with
  | error m =>
    cases hresult' : g' σ with
    | error m' => rw [bind_eq_of_error hresult, bind_eq_of_error hresult']; rfl
    | ok r => rw [hresult, hresult'] at hsame; cases hsame
  | ok r =>
    cases hresult' : g' σ with
    | error m' => rw [hresult, hresult'] at hsame; cases hsame
    | ok r' =>
      rw [hresult, hresult'] at hsame
      cases hsame
      rw [bind_eq_of_ok hresult, bind_eq_of_ok hresult']
      exact hk _ _ (hcarries σ hσ _ _ hresult)

theorem andThen (hcarries : Carries V W g) (hk : ∀ a, Agrees W (k a) (k' a)) : Agrees V (g >>= k) (g >>= k') :=
  (refl V g).bind hcarries hk

theorem before (h : Agrees V g g') (k : α → Generate β) : Agrees V (g >>= k) (g' >>= k) :=
  h.bind (W := fun _ => True) (fun _ _ _ _ _ => trivial) fun _ => .refl _ _

theorem modify {f : Scopes → Scopes} {k k' : Unit → Generate β} (hf : ∀ σ, V σ → W (f σ))
    (hk : Agrees W (k ()) (k' ())) : Agrees V (modify f >>= k) (modify f >>= k') := fun σ hσ => hk (f σ) (hf σ hσ)

theorem ite {c : Scopes → Prop} [DecidablePred c] {h h'} (hyes : Agrees (fun σ => V σ ∧ c σ) g g')
    (hno : Agrees (fun σ => V σ ∧ ¬ c σ) h h') :
    Agrees V (get >>= fun σ => if c σ then g else h) (get >>= fun σ => if c σ then g' else h') := by
  intro σ hσ
  by_cases hc : c σ
  · show ((if c σ then g else h) σ).toOption = ((if c σ then g' else h') σ).toOption
    rw [if_pos hc, if_pos hc]
    exact hyes σ ⟨hσ, hc⟩
  · show ((if c σ then g else h) σ).toOption = ((if c σ then g' else h') σ).toOption
    rw [if_neg hc, if_neg hc]
    exact hno σ ⟨hσ, hc⟩

end Agrees

/-! ### What the parts of the generator lead to -/

theorem Carries.forward (distance : Nat) : Carries V V (Generate.forward distance) := by
  intro σ hσ
  refine (Ensures.forward distance).mono ?_
  rintro _ _ ⟨_, _, rfl⟩
  exact hσ

theorem Carries.name (x : String) : Carries (View owner bound) (View owner bound) (Generate.pool (.text x)) :=
  fun _ hσ => (Ensures.name x hσ.toTidy).mono fun _ _ h => hσ.performs h.1 h.2.1

theorem Carries.resolve (hx : IsName x) : Carries (View owner bound) (View owner bound) (Generate.resolve x) :=
  fun _ hσ => (Ensures.resolve hx.1 hσ.toTidy).mono fun _ _ h => hσ.performs h.2.1 h.2.2.1

theorem Carries.receiver : Carries (View owner bound) (View owner bound) Generate.receiver := by
  intro σ hσ
  refine (Ensures.receiver hσ.toTidy).mono ?_
  rintro _ _ ⟨_, _, h⟩
  exact hσ.performs h.performs h.tidy

theorem Carries.declare (hx : IsName x) : Carries (View owner bound) (View owner (x :: bound)) (Generate.declare x) :=
  fun _ hσ => (Ensures.declare hx hσ.toTidy).mono fun _ _ h => hσ.bind h.2 (visible_declare? h.1)

theorem Ensures.parameters_visible (ps : List String) (σ : Scopes) :
    Ensures (ps.forM Generate.parameter) σ fun _ σ' => σ'.visible = ps.reverse ++ σ.visible := by
  induction ps generalizing σ with
  | nil => exact .pure rfl
  | cons x ps ih =>
    refine .bind (Q := fun _ σ' => σ'.visible = x :: σ.visible) (fun _ σ' h => ?_) fun _ σ1 h1 => ?_
    · rw [Judged.parameter_apply] at h
      split at h
      · cases h
      · cases hdeclare : σ.countParameter.current.declare x with
        | error fault => rw [hdeclare] at h; cases h
        | ok s =>
          rw [hdeclare] at h
          cases h
          rw [visible_define]
          exact visible_declare? (σ := σ.countParameter) (by rw [Scopes.declare?, hdeclare])
    · refine (ih σ1).mono fun _ σ' h => ?_
      rw [h, h1, reverse_cons, append_assoc]
      rfl

theorem Ensures.enter {kind} {σ : Scopes} (hkind : kind = .function ∨ kind = .method) (name : String)
    (hps : ∀ x ∈ ps, IsName x) (hσ : σ.View owner bound) :
    Ensures (ps.forM Generate.parameter) (σ.enter kind name owner).beginBlock fun _ => Block owner (ps ++ bound) := by
  intro u σ' h
  have hentered := hσ.toTidy.enter hkind name
  obtain ⟨htakes, ht, _⟩ := Ensures.parameters hps (.refl hentered.toSettled) hentered (show 0 < 0 + 1 by decide) u σ' h
  have hroot : (σ.enter kind name owner).beginBlock.visible ⊆ "" :: receiverName :: bound := by
    refine cons_subset.mpr ⟨?_, hσ.names⟩
    rcases hkind with rfl | rfl <;> simp
  refine ⟨⟨ht, ?_⟩, .inr (by rw [htakes.rest]; exact Int.zero_lt_one)⟩
  rw [Ensures.parameters_visible ps _ u σ' h]
  intro y hy
  rcases mem_append.mp hy with hy | hy
  · simp [mem_reverse.mp hy]
  · have hmem := hroot hy
    simp only [mem_cons, mem_append] at hmem ⊢
    tauto

namespace Agrees

theorem routine {kind : RoutineKind} {name : String} {body body' : Generate (List Piece)}
    (hkind : kind = .function ∨ kind = .method) (hps : ∀ x ∈ ps, IsName x)
    (hbody : Agrees (Block owner (ps ++ bound)) body body') :
    Agrees (View owner bound) (Generate.routine kind owner name ps body)
      (Generate.routine kind owner name ps body') := by
  unfold Generate.routine
  refine .modify (W := fun σ1 => ∃ σ, σ.View owner bound ∧ σ1 = (σ.enter kind name owner).beginBlock)
    (fun σ hσ => ⟨σ, hσ, rfl⟩) (.andThen (W := Block owner (ps ++ bound)) ?_ fun _ => hbody.before _)
  rintro _ ⟨σ, hσ, rfl⟩
  exact .enter hkind name hps hσ

theorem variable_ {value value'} (hx : IsName x) (hvalue : Agrees (View owner (x :: bound)) value value') :
    Agrees (View owner bound) (Generate.variable_ x value) (Generate.variable_ x value') := by
  unfold Generate.variable_
  refine .ite (mono (W := View owner bound) (.andThen (Carries.name x) fun name => ?_) fun _ h => h.1)
    (mono (W := View owner bound) (.andThen (Carries.declare hx) fun _ => hvalue.before _) fun _ h => h.1)
  exact (hvalue.mono fun _ h => h.mono (subset_cons_self _ _)).before _

theorem functionVariable {function function' : Generate (List Instruction)} (hx : IsName x)
    (hfunction : Agrees (View owner (x :: bound)) function function') :
    Agrees (Block owner bound) (Generate.functionVariable x function) (Generate.functionVariable x function') := by
  unfold Generate.functionVariable
  refine .ite (mono (W := View owner bound) (.andThen (Carries.name x) fun name => ?_) fun _ h => h.1.toView) ?_
  · exact (hfunction.mono fun _ h => h.mono (subset_cons_self _ _)).before _
  · refine .andThen (W := fun σ => σ.define.View owner (x :: bound)) ?_ fun _ => .modify (fun _ => id) hfunction
    rintro σ ⟨hσ, hlocal⟩
    have hpos := depth_pos_of_not_atGlobalLevel hσ.toSettled hσ.canDeclare hlocal
    refine (Ensures.declare hx hσ.toTidy).mono ?_
    rintro _ σ1 ⟨hdeclare, ht⟩
    have hsettled := (declares_local hσ.toSettled hpos hdeclare (.refl ht.toSettled)).1.settled
    exact hσ.toView.bind (ht.define hsettled) ((visible_define σ1).trans (visible_declare? hdeclare))

theorem onName {variable_ variable_' property property'} (hx : IsName x)
    (hvariable : ∀ access, Agrees (View owner bound) (variable_ access) (variable_' access))
    (hproperty : ∀ name, Agrees (View owner bound) (property name) (property' name)) :
    Agrees (View owner bound) (Generate.onName x variable_ property) (Generate.onName x variable_' property') := by
  unfold Generate.onName
  refine .andThen (Carries.resolve hx) fun access => ?_
  cases access with
  | property name => exact .andThen Carries.receiver fun _ => (hproperty name).before _
  | local_ slot => exact hvariable (.local_ slot)
  | upvalue index => exact hvariable (.upvalue index)
  | global name => exact hvariable (.global name)

theorem superCall {arguments arguments'} (h : Agrees (View owner bound) arguments arguments') :
    Agrees (View owner bound) (Generate.superCall owner x arguments) (Generate.superCall owner x arguments') := by
  unfold Generate.superCall
  split
  · exact .refl _ _
  · exact .andThen (Carries.name x) fun _ => .andThen Carries.receiver fun _ => h.before _

theorem conditional {condition condition' l consequent consequent' alternative alternative'}
    (hcondition : Agrees V condition condition') (hcarries : Carries V V condition)
    (hconsequent : ∀ l, Agrees V (consequent l) (consequent' l)) (hyes : ∀ l, Carries V V (consequent l))
    (halternative : ∀ l, Agrees V (alternative l) (alternative' l)) :
    Agrees V (Generate.conditional condition consequent alternative l)
      (Generate.conditional condition' consequent' alternative' l) := by
  unfold Generate.conditional
  exact hcondition.bind hcarries fun _ => (hconsequent _).bind (hyes _) fun _ => .andThen (.forward _) fun _ =>
    (halternative _).before _

theorem optional {clause clause'} (h : Option.Rel (Agrees V) clause clause') :
    Agrees V (Generate.optional clause) (Generate.optional clause') := by
  cases h with
  | none => exact .refl _ _
  | some h => exact h.before _

theorem orNil {clause clause' : Option (Generate (List Instruction))} (h : Option.Rel (Agrees V) clause clause') :
    Agrees V (clause.getD (return [.pushNil])) (clause'.getD (return [.pushNil])) := by
  cases h with
  | none => exact .refl _ _
  | some h => exact h

theorem stepCode {clause clause'} (test : Option (List Instruction)) (h : Option.Rel (Agrees V) clause clause') :
    Agrees V (Generate.stepCode test clause) (Generate.stepCode test clause') := by
  cases h with
  | none => exact .refl _ _
  | some h => exact h.before _

theorem loop {condition condition' step step' body body'} (hcondition : Option.Rel (Agrees V) condition condition')
    (htest : Carries V V (Generate.optional condition)) (hstep : Option.Rel (Agrees V) step step')
    (hcarries : ∀ test, Carries V V (Generate.stepCode test step)) (hbody : ∀ l, Agrees V (body l) (body' l)) :
    Agrees V (Generate.loop condition step body) (Generate.loop condition' step' body') := by
  unfold Generate.loop
  refine (optional hcondition).bind htest fun test => (stepCode test hstep).bind (hcarries test) fun _ => ?_
  refine .andThen (W := V) (fun σ hσ => ?_) fun σ => (hbody _).before _
  rintro _ _ ⟨⟩
  exact hσ

end Agrees

end Generate

/-! ### What trees lead to -/

section

variable {owner : Option String} {nearest : Bool} {bound : List String} {ts : List TokenKind}

theorem Derives.carries_expression {p} {e : Expression} (h : Derives nearest (.expression p) e ts) :
    Carries (View owner bound) (View owner bound) (e.code owner) :=
  fun σ hσ => (h.coded owner σ hσ.toTidy).mono fun _ _ hc => hσ.performs hc.performs hc.tidy

theorem Derives.carries_statement {s : Statement} (h : Derives nearest .statement s ts) (l : Option LoopSite) :
    Carries (View owner bound) (View owner bound) (s.code owner l) :=
  fun σ hσ => (h.coded owner l σ hσ.toTidy).mono fun _ _ hc => hσ.performs hc.performs hc.lays.tidy

theorem Derives.carries_condition (h : Derives nearest .clause c ts) :
    Carries (View owner bound) (View owner bound) (Generate.optional (c.code? owner)) :=
  fun _ hσ => (Ensures.optional hσ.toTidy (h.coded owner)).mono fun _ _ hc => hσ.performs hc.1 hc.2.1

theorem Derives.carries_step (h : Derives nearest .clause c ts) (test : Option (List Instruction)) :
    Carries (View owner bound) (View owner bound) (Generate.stepCode test (c.code? owner)) := by
  intro σ hσ
  refine (Ensures.stepCode test hσ.toTidy (h.coded owner)).mono ?_
  rintro _ _ ⟨_, _, hc, he, _⟩
  exact hσ.performs he hc.lays.tidy

end

/-! ### Names that are declared -/

def Declarators.names : Declarators → List String
  | .nil => []
  | .cons x _ rest => rest.names ++ [x]

def Declaration.names : Declaration → List String
  | .function x _ _ => [x]
  | .variables vs => vs.names
  | .statement _ => []

def Declarations.names : Declarations → List String
  | .nil => []
  | .cons d rest => rest.names ++ d.names

namespace Generate

variable {owner : Option String} {bound : List String} {x : String} {σ : Scopes} {value : Generate (List Instruction)}

theorem Ensures.variable_block (hx : IsName x) (hσ : σ.Block owner bound)
    (hvalue : ∀ σ, σ.Tidy owner → Ensures value σ fun is σ' => σ.Coded owner is 1 σ') :
    Ensures (Generate.variable_ x value) σ fun _ => Block owner (x :: bound) := by
  have hview : Carries (View owner (x :: bound)) (View owner (x :: bound)) value :=
    fun σ hσ => (hvalue σ hσ.toTidy).mono fun _ _ h => hσ.performs h.performs h.tidy
  have hnames : Ensures (Generate.variable_ x value) σ fun _ σ' => σ'.visible ⊆ "" :: receiverName :: x :: bound := by
    refine .look (.ite (fun _ => ?_) fun _ => ?_)
    · have hmore := hσ.toView.mono (subset_cons_self x bound)
      exact (Carries.name x σ hmore).bind fun _ σ1 h1 => (hview σ1 h1).bind fun _ _ h => .pure h.names
    · refine (Carries.declare hx σ hσ.toView).bind fun _ σ1 h1 => (hview σ1 h1).bind fun _ σ2 h2 => .modify (.pure ?_)
      rw [visible_define]
      exact h2.names
  intro is σ' h
  have hstates := Ensures.variable_ hx hσ.toTidy hσ.canDeclare hvalue is σ' h none
  exact ⟨⟨hstates.lays.tidy, hnames is σ' h⟩, hstates.declares.canDeclare hσ.canDeclare⟩

theorem Ensures.functionVariable_block {arity : Nat} (hx : IsName x) (hσ : σ.Block owner bound)
    (hvalue : ∀ σ, σ.Tidy owner → Ensures value σ fun is σ' => σ.Coded owner is 1 σ' ∧ Closes σ' .function x arity is) :
    Ensures (Generate.functionVariable x value) σ fun _ => Block owner (x :: bound) := by
  have hvisible : ∀ σ, σ.Tidy owner → Ensures value σ fun _ σ' => σ'.visible = σ.visible :=
    fun σ hσ => (hvalue σ hσ).mono fun _ _ h => h.1.performs.visible_eq
  have hnames : Ensures (Generate.functionVariable x value) σ fun _ σ' => σ'.visible
      ⊆ "" :: receiverName :: x :: bound := by
    refine .look (.ite (fun _ => ?_) fun hlocal => ?_)
    · refine (Carries.name x σ (hσ.toView.mono (subset_cons_self x bound))).bind fun _ σ1 h1 => ?_
      exact (hvisible σ1 h1.toTidy).bind fun _ _ h => .pure (h ▸ h1.names)
    · have hpos := depth_pos_of_not_atGlobalLevel hσ.toSettled hσ.canDeclare hlocal
      refine (Ensures.declare hx hσ.toTidy).bind ?_
      rintro _ σ1 ⟨hdeclare, ht⟩
      have hsettled := (declares_local hσ.toSettled hpos hdeclare (.refl ht.toSettled)).1.settled
      refine .modify ((hvisible _ (ht.define hsettled)).mono fun _ σ' h => ?_)
      rw [h, visible_define]
      exact (hσ.toView.bind ht (visible_declare? hdeclare)).names
  intro is σ' h
  have hstates := Ensures.functionVariable hx hσ.toTidy hσ.canDeclare hvalue is σ' h none
  exact ⟨⟨hstates.lays.tidy, hnames is σ' h⟩, hstates.declares.canDeclare hσ.canDeclare⟩

end Generate

section

variable {owner : Option String} {nearest : Bool}

theorem Derives.carries_variables : {vs : Declarators} → {ts : List TokenKind} → Derives nearest .variables vs ts →
    ∀ bound, Carries (Block owner bound) (Block owner (vs.names ++ bound)) (vs.code owner)
  | .nil, _, h => nomatch h
  | .cons x value rest, _, h => by
    intro bound σ hσ
    cases h with
    | lastVariable hx hvalue =>
      refine (Ensures.variable_block hx hσ (Clause.coded (hvalue.coded owner))).bind fun _ σ' h => ?_
      exact .pure h
    | moreVariables hx hvalue hrest =>
      refine (Ensures.variable_block hx hσ (Clause.coded (hvalue.coded owner))).bind fun _ σ1 h1 => ?_
      refine (carries_variables hrest (x :: bound) σ1 h1).bind fun _ σ' h => .pure ?_
      rw [Declarators.names, append_assoc]
      exact h

theorem Derives.carries_declaration {d : Declaration} {ts} (h : Derives nearest .declaration d ts)
    (bound : List String) (l : Option LoopSite) :
    Carries (Block owner bound) (Block owner (d.names ++ bound)) (d.code owner l) := by
  intro σ hσ
  cases h with
  | functionDeclaration hx hfunction =>
    have hcoded := hfunction.coded owner
    exact (Ensures.functionVariable_block hx hσ fun σ hσ => Ensures.routine (.inl rfl) hσ hcoded.1 hcoded.2).bind
      fun _ _ h => .pure h
  | variableDeclaration hvs => exact (hvs.carries_variables bound σ hσ).bind fun _ _ h => .pure h
  | statement hs =>
    refine (hs.coded owner l σ hσ.toTidy).mono fun _ _ hc => ?_
    exact ⟨hσ.toView.performs hc.performs hc.lays.tidy, hc.performs.toDeclares.canDeclare hσ.canDeclare⟩

theorem Derives.carries_first {ds : Declarations} {ts} (h : Derives nearest .forInitializer ds ts)
    (bound : List String) (l : Option LoopSite) :
    Carries (Block owner bound) (Block owner (ds.names ++ bound)) (ds.code owner l) := by
  have hone : ∀ {d : Declaration}, Carries (Block owner bound) (Block owner (d.names ++ bound)) (d.code owner l) →
      Carries (Block owner bound) (Block owner ((Declarations.cons d .nil).names ++ bound))
        ((Declarations.cons d .nil).code owner l) :=
    fun hd σ hσ => (hd σ hσ).bind fun _ _ h => .pure h
  cases h with
  | noFirst => exact fun σ hσ => .pure hσ
  | @firstVariables type _ _ hvs =>
    exact hone ((@Derives.variableDeclaration _ type _ _ hvs).carries_declaration bound l)
  | firstExpression he => exact hone (Derives.carries_declaration (.statement (.expression he)) bound l)

end

/-! ### Trees that differ in spelling -/

/-- Which expressions may be spelled in another way, where some names are bound. -/
abbrev Respelling := List String → Expression → Expression → Prop

section

variable (R : Respelling)

mutual

/-- Two expressions that differ in spelling. The names bound at the place of a part that is spelled in another way
are those of the locals in sight there: the parameters of the functions around it, and what was declared before it
in the blocks around it. A variable is bound in its own first value. -/
inductive Expression.Alike : List String → Expression → Expression → Prop
  | same {bound e} : Expression.Alike bound e e
  | replace {bound e e'} : R bound e e' → Expression.Alike bound e e'
  | assign {bound x op e e'} : Expression.Alike bound e e' → Expression.Alike bound (.assign x op e) (.assign x op e')
  | unary {bound op e e'} : Expression.Alike bound e e' → Expression.Alike bound (.unary op e) (.unary op e')
  | binary {bound op l l' r r'} : Expression.Alike bound l l' → Expression.Alike bound r r' →
      Expression.Alike bound (.binary op l r) (.binary op l' r')
  | and {bound l l' r r'} : Expression.Alike bound l l' → Expression.Alike bound r r' →
      Expression.Alike bound (.and l r) (.and l' r')
  | or {bound l l' r r'} : Expression.Alike bound l l' → Expression.Alike bound r r' →
      Expression.Alike bound (.or l r) (.or l' r')
  | call {bound e e' a a'} : Expression.Alike bound e e' → Arguments.Alike bound a a' →
      Expression.Alike bound (.call e a) (.call e' a')
  | callName {bound x a a'} : Arguments.Alike bound a a' → Expression.Alike bound (.callName x a) (.callName x a')
  | property {bound e e' x} : Expression.Alike bound e e' → Expression.Alike bound (.property e x) (.property e' x)
  | assignProperty {bound e e' x op v v'} : Expression.Alike bound e e' → Expression.Alike bound v v' →
      Expression.Alike bound (.assignProperty e x op v) (.assignProperty e' x op v')
  | invoke {bound e e' x a a'} : Expression.Alike bound e e' → Arguments.Alike bound a a' →
      Expression.Alike bound (.invoke e x a) (.invoke e' x a')
  | superCall {bound x a a'} : Arguments.Alike bound a a' → Expression.Alike bound (.superCall x a) (.superCall x a')
  | lambda {bound ps body body'} : Declarations.Alike (ps ++ bound) body body' →
      Expression.Alike bound (.lambda ps body) (.lambda ps body')

inductive Arguments.Alike : List String → Arguments → Arguments → Prop
  | same {bound a} : Arguments.Alike bound a a
  | cons {bound e e' a a'} : Expression.Alike bound e e' → Arguments.Alike bound a a' →
      Arguments.Alike bound (.cons e a) (.cons e' a')

inductive Clause.Alike : List String → Clause → Clause → Prop
  | same {bound c} : Clause.Alike bound c c
  | some {bound e e'} : Expression.Alike bound e e' → Clause.Alike bound (.some e) (.some e')

inductive Declarators.Alike : List String → Declarators → Declarators → Prop
  | same {bound vs} : Declarators.Alike bound vs vs
  | cons {bound x c c' vs vs'} : Clause.Alike (x :: bound) c c' → Declarators.Alike (x :: bound) vs vs' →
      Declarators.Alike bound (.cons x c vs) (.cons x c' vs')

inductive Statement.Alike : List String → Statement → Statement → Prop
  | same {bound s} : Statement.Alike bound s s
  | expression {bound e e'} : Expression.Alike bound e e' → Statement.Alike bound (.expression e) (.expression e')
  | block {bound body body'} : Declarations.Alike bound body body' → Statement.Alike bound (.block body) (.block body')
  | ifThen {bound e e' s s'} : Expression.Alike bound e e' → Statement.Alike bound s s' →
      Statement.Alike bound (.ifThen e s) (.ifThen e' s')
  | ifElse {bound e e' s s' a a'} : Expression.Alike bound e e' → Statement.Alike bound s s' →
      Statement.Alike bound a a' → Statement.Alike bound (.ifElse e s a) (.ifElse e' s' a')
  | while_ {bound e e' s s'} : Expression.Alike bound e e' → Statement.Alike bound s s' →
      Statement.Alike bound (.while_ e s) (.while_ e' s')
  | for_ {bound first first' c c' d d' s s'} : Declarations.Alike bound first first' →
      Clause.Alike (Declarations.names first ++ bound) c c' → Clause.Alike (Declarations.names first ++ bound) d d' →
      Statement.Alike (Declarations.names first ++ bound) s s' →
      Statement.Alike bound (.for_ first c d s) (.for_ first' c' d' s')
  | return_ {bound c c'} : Clause.Alike bound c c' → Statement.Alike bound (.return_ c) (.return_ c')

inductive Declaration.Alike : List String → Declaration → Declaration → Prop
  | function {bound x ps body body'} : Declarations.Alike (ps ++ x :: bound) body body' →
      Declaration.Alike bound (.function x ps body) (.function x ps body')
  | «variables» {bound vs vs'} : Declarators.Alike bound vs vs' →
      Declaration.Alike bound (.variables vs) (.variables vs')
  | statement {bound s s'} : Statement.Alike bound s s' → Declaration.Alike bound (.statement s) (.statement s')

inductive Declarations.Alike : List String → Declarations → Declarations → Prop
  | same {bound ds} : Declarations.Alike bound ds ds
  | cons {bound d d' ds ds'} : Declaration.Alike bound d d' → Declarations.Alike (Declaration.names d ++ bound) ds ds' →
      Declarations.Alike bound (.cons d ds) (.cons d' ds')

end

def Form.Alike (bound : List String) : (f : Form) → f.Tree → f.Tree → Prop
  | .expression _, e, e' => Expression.Alike R bound e e'
  | .arguments, a, a' | .argumentList, a, a' => Arguments.Alike R bound a a'
  | .parameters, ps, ps' | .parameterList, ps, ps' => ps = ps'
  | .function, (ps, body), (ps', body') => ps = ps' ∧ Declarations.Alike R (ps ++ bound) body body'
  | .clause, c, c' | .initializer, c, c' => Clause.Alike R bound c c'
  | .variables, vs, vs' => Declarators.Alike R bound vs vs'
  | .statement, s, s' => Statement.Alike R bound s s'
  | .declaration, d, d' => Declaration.Alike R bound d d'
  | .forInitializer, ds, ds' | .declarations, ds, ds' => Declarations.Alike R bound ds ds'

end

/-- Some parts of a text are replaced. -/
inductive Rewrites (P : List TokenKind → List TokenKind → Prop) : List TokenKind → List TokenKind → Prop
  | nil : Rewrites P [] []
  | keep {k ts ts'} : Rewrites P ts ts' → Rewrites P (k :: ts) (k :: ts')
  | replace {us us' ts ts'} : P us us' → Rewrites P ts ts' → Rewrites P (us ++ ts) (us' ++ ts')

def Form.Respells (R : Respelling) (bound : List String) : (f : Form) → f.Tree → f.Tree → Prop
  | .expression _, e, e' => R bound e e'
  | _, _, _ => False

/-- What is spelled in another way is written with other tokens, as tightly as before. -/
def Respelling.Writes (R : Respelling) (P : List TokenKind → List TokenKind → Prop) : Prop :=
  ∀ {bound f t t' ts}, f.Respells R bound t t' → Derives true f t ts → ∃ ts', Rewrites P ts ts' ∧ Derives true f t' ts'

/-- What is spelled in another way has the same code wherever it can stand. -/
def Respelling.Sound (R : Respelling) (owner : Option String) : Prop :=
  ∀ {bound e e'}, R bound e e' → Agrees (View owner bound) (e.code owner) (e'.code owner)

def Form.Agree (owner : Option String) (bound : List String) : (f : Form) → f.Tree → f.Tree → Prop
  | .expression _, e, e' => Agrees (View owner bound) (e.code owner) (e'.code owner)
  | .arguments, a, a' | .argumentList, a, a' =>
      a.length = a'.length ∧ Agrees (View owner bound) (a.code owner) (a'.code owner)
  | .parameters, _, _ | .parameterList, _, _ => True
  | .function, (ps, body), (_, body') =>
      Agrees (Block owner (ps ++ bound)) (body.code owner none) (body'.code owner none)
  | .clause, c, c' | .initializer, c, c' => Option.Rel (Agrees (View owner bound)) (c.code? owner) (c'.code? owner)
  | .variables, vs, vs' => Agrees (Block owner bound) (vs.code owner) (vs'.code owner)
  | .statement, s, s' => ∀ l, Agrees (View owner bound) (s.code owner l) (s'.code owner l)
  | .declaration, d, d' => ∀ l, Agrees (Block owner bound) (d.code owner l) (d'.code owner l)
  | .forInitializer, ds, ds' | .declarations, ds, ds' =>
      ∀ l, Agrees (Block owner bound) (ds.code owner l) (ds'.code owner l)

section

variable {P : List TokenKind → List TokenKind → Prop} {R : Respelling} {owner : Option String} {bound : List String}
  {f : Form} {t t' : f.Tree} {ts ts' us us' : List TokenKind}

namespace Rewrites

theorem refl : ∀ ts, Rewrites P ts ts
  | [] => .nil
  | _ :: ts => (refl ts).keep

theorem append (h : Rewrites P ts ts') (h' : Rewrites P us us') : Rewrites P (ts ++ us) (ts' ++ us') := by
  induction h with
  | nil => exact h'
  | keep _ ih => exact ih.keep
  | replace hp _ ih =>
    rw [append_assoc, append_assoc]
    exact ih.replace hp

theorem of (h : P ts ts') : Rewrites P ts ts' := by simpa using nil.replace h

theorem snoc (h : Rewrites P ts ts') (k : TokenKind) : Rewrites P (ts ++ [k]) (ts' ++ [k]) := h.append (.refl [k])

end Rewrites

theorem Statement.Alike.endsOpen_eq : ∀ {bound} {s s' : Statement}, s.Alike R bound s' → s'.endsOpen = s.endsOpen
  | _, _, _, .same | _, _, _, .expression _ | _, _, _, .block _ | _, _, _, .ifThen _ _ | _, _, _, .return_ _ => rfl
  | _, .ifElse .., _, .ifElse _ _ h | _, .while_ .., _, .while_ _ h | _, .for_ .., _, .for_ _ _ _ h =>
    (endsOpen_eq h :)

theorem Form.Agree.refl (owner : Option String) (bound : List String) (f : Form) (t : f.Tree) :
    f.Agree owner bound t t := by
  have hclause : ∀ c : Option (Generate (List Instruction)), Option.Rel (Agrees (View owner bound)) c c := by
    rintro (_ | code)
    · exact .none
    · exact .some (.refl _ _)
  match f, t with
  | .expression _, _ | .function, _ | .variables, _ => exact Agrees.refl _ _
  | .arguments, _ | .argumentList, _ => exact ⟨rfl, .refl _ _⟩
  | .parameters, _ | .parameterList, _ => trivial
  | .clause, _ | .initializer, _ => exact hclause _
  | .statement, _ | .declaration, _ | .forInitializer, _ | .declarations, _ => exact fun _ => .refl _ _

theorem Agrees.counted {a a' : Arguments} (h : Form.Agree owner bound .arguments a a') :
    Agrees (View owner bound) (counted a (a.code owner)) (counted a' (a'.code owner)) := by
  unfold Generate.counted
  rw [h.1]
  exact h.2.before _

/-- A tree that is spelled in another way has the same code. It is written with the tokens of the first one, in which
those of the parts that differ are replaced. -/
theorem Derives.respelled (h : Derives true f t ts) (hR : R.Sound owner) (hP : R.Writes P) (ht : f.Alike R bound t t') :
    f.Agree owner bound t t' ∧ ∃ ts', Rewrites P ts ts' ∧ Derives true f t' ts' := by
  have hsame {bound f t ts} (h : Derives true f t ts) :
      Form.Agree owner bound f t t ∧ ∃ ts', Rewrites P ts ts' ∧ Derives true f t ts' := ⟨.refl .., ts, .refl ts, h⟩
  have whole := h
  induction h generalizing bound with
  | literal | name | this =>
    cases ht with
    | same => exact hsame whole
    | replace hr => exact ⟨hR hr, hP hr whole⟩
  | group h ih =>
    obtain ⟨he, _, hts, hd⟩ := ih ht h
    exact ⟨he, _, (hts.snoc _).keep, .group hd⟩
  | tighter h ih =>
    obtain ⟨he, _, hts, hd⟩ := ih ht h
    exact ⟨he, _, hts, .tighter hd⟩
  | callName hx h ih =>
    cases ht with
    | same => exact hsame whole
    | replace hr => exact ⟨hR hr, hP hr whole⟩
    | callName ha =>
      obtain ⟨ha, _, hts, hd⟩ := ih ha h
      have hcounted := Agrees.counted ha
      exact ⟨Agrees.onName hx (fun _ => (hcounted.before _).before _) fun _ => hcounted.before _,
        _, (hts.snoc _).keep.keep, .callName hx hd⟩
  | superCall hx h ih =>
    cases ht with
    | same => exact hsame whole
    | replace hr => exact ⟨hR hr, hP hr whole⟩
    | superCall ha =>
      obtain ⟨ha, _, hts, hd⟩ := ih ha h
      exact ⟨Agrees.superCall (Agrees.counted ha), _, (hts.snoc _).keep.keep.keep, .superCall hx hd⟩
  | lambda h ih =>
    cases ht with
    | same => exact hsame whole
    | replace hr => exact ⟨hR hr, hP hr whole⟩
    | lambda hbody =>
      obtain ⟨hbody, _, hts, hd⟩ := ih (show Form.Alike R _ .function (_, _) (_, _) from ⟨rfl, hbody⟩) h
      exact ⟨Agrees.routine (.inl rfl) (h.coded owner).1 hbody, _, hts.keep, .lambda hd⟩
  | call h h' ih ih' =>
    cases ht with
    | same => exact hsame whole
    | replace hr => exact ⟨hR hr, hP hr whole⟩
    | call he ha =>
      obtain ⟨he, _, hts, hd⟩ := ih he h
      obtain ⟨ha, _, hus, hd'⟩ := ih' ha h'
      exact ⟨he.bind h.carries_expression fun _ => ((Agrees.counted ha).before _).before _,
        _, hts.append (hus.snoc _).keep, .call hd hd'⟩
  | property hx h ih =>
    cases ht with
    | same => exact hsame whole
    | replace hr => exact ⟨hR hr, hP hr whole⟩
    | property he =>
      obtain ⟨he, _, hts, hd⟩ := ih he h
      exact ⟨he.before _, _, hts.append (.refl _), .property hx hd⟩
  | invoke hx h h' ih ih' =>
    cases ht with
    | same => exact hsame whole
    | replace hr => exact ⟨hR hr, hP hr whole⟩
    | invoke he ha =>
      obtain ⟨he, _, hts, hd⟩ := ih he h
      obtain ⟨ha, _, hus, hd'⟩ := ih' ha h'
      refine ⟨?_, _, hts.append (hus.snoc _).keep.keep.keep, .invoke hx hd hd'⟩
      exact he.bind h.carries_expression fun _ => .andThen (Carries.name _) fun _ =>
        ((Agrees.counted ha).before _).before _
  | unary h ih =>
    cases ht with
    | same => exact hsame whole
    | replace hr => exact ⟨hR hr, hP hr whole⟩
    | unary he =>
      obtain ⟨he, _, hts, hd⟩ := ih he h
      exact ⟨he.before _, _, hts.keep, .unary hd⟩
  | binary h h' ih ih' =>
    cases ht with
    | same => exact hsame whole
    | replace hr => exact ⟨hR hr, hP hr whole⟩
    | binary hl hr =>
      obtain ⟨hl, _, hts, hd⟩ := ih hl h
      obtain ⟨hr, _, hus, hd'⟩ := ih' hr h'
      exact ⟨hl.bind h.carries_expression fun _ => hr.before _, _, hts.append hus.keep, .binary hd hd'⟩
  | and h h' ih ih' =>
    cases ht with
    | same => exact hsame whole
    | replace hr => exact ⟨hR hr, hP hr whole⟩
    | and hl hr =>
      obtain ⟨hl, _, hts, hd⟩ := ih hl h
      obtain ⟨hr, _, hus, hd'⟩ := ih' hr h'
      exact ⟨hl.bind h.carries_expression fun _ => (hr.before _).before _, _, hts.append hus.keep, .and hd hd'⟩
  | or h h' ih ih' =>
    cases ht with
    | same => exact hsame whole
    | replace hr => exact ⟨hR hr, hP hr whole⟩
    | or hl hr =>
      obtain ⟨hl, _, hts, hd⟩ := ih hl h
      obtain ⟨hr, _, hus, hd'⟩ := ih' hr h'
      exact ⟨hl.bind h.carries_expression fun _ => (hr.before _).before _, _, hts.append hus.keep, .or hd hd'⟩
  | assign hx h ih =>
    cases ht with
    | same => exact hsame whole
    | replace hr => exact ⟨hR hr, hP hr whole⟩
    | assign he =>
      obtain ⟨he, _, hts, hd⟩ := ih he h
      exact ⟨Agrees.onName hx (fun _ => he.before _) fun _ => he.before _, _, hts.keep.keep, .assign hx hd⟩
  | assignProperty hx h h' ih ih' =>
    cases ht with
    | same => exact hsame whole
    | replace hr => exact ⟨hR hr, hP hr whole⟩
    | assignProperty he hv =>
      obtain ⟨he, _, hts, hd⟩ := ih he h
      obtain ⟨hv, _, hus, hd'⟩ := ih' hv h'
      exact ⟨he.bind h.carries_expression fun _ => .andThen (Carries.name _) fun _ => hv.before _,
        _, hts.append hus.keep.keep.keep, .assignProperty hx hd hd'⟩
  | noArguments | noClause | noInitializer | break_ | continue_ | noFirst | noDeclarations | noParameters
  | someParameters | lastParameter | parameter =>
    cases ht
    exact hsame whole
  | someArguments h ih =>
    obtain ⟨ha, _, hts, hd⟩ := ih ht h
    exact ⟨ha, _, hts, .someArguments hd⟩
  | lastArgument h ih =>
    cases ht with
    | same => exact hsame whole
    | cons he ha =>
      cases ha
      obtain ⟨he, _, hts, hd⟩ := ih he h
      exact ⟨⟨rfl, he.before _⟩, _, hts, .lastArgument hd⟩
  | argument h h' ih ih' =>
    cases ht with
    | same => exact hsame whole
    | cons he ha =>
      obtain ⟨he, _, hts, hd⟩ := ih he h
      obtain ⟨⟨hlength, ha⟩, _, hus, hd'⟩ := ih' ha h'
      exact ⟨⟨congrArg (· + 1) hlength, he.bind h.carries_expression fun _ => ha.before _⟩,
        _, hts.append hus.keep, .argument hd hd'⟩
  | function h h' _ ih =>
    obtain ⟨rfl, hbody⟩ := ht
    obtain ⟨hbody, _, hus, hd⟩ := ih hbody h'
    exact ⟨hbody none, _, ((Rewrites.refl _).append (hus.snoc _).keep.keep).keep, .function h hd⟩
  | someClause h ih =>
    cases ht with
    | same => exact hsame whole
    | some he =>
      obtain ⟨he, _, hts, hd⟩ := ih he h
      exact ⟨.some he, _, hts, .someClause hd⟩
  | expression h ih =>
    cases ht with
    | same => exact hsame whole
    | expression he =>
      obtain ⟨he, _, hts, hd⟩ := ih he h
      exact ⟨fun _ => he.before _, _, hts.snoc _, .expression hd⟩
  | block h ih =>
    cases ht with
    | same => exact hsame whole
    | block hbody =>
      obtain ⟨hbody, _, hts, hd⟩ := ih hbody h
      exact ⟨fun l => .modify (fun _ => View.beginBlock) ((hbody l).before _), _, (hts.snoc _).keep, .block hd⟩
  | ifThen h h' ih ih' =>
    cases ht with
    | same => exact hsame whole
    | ifThen he hs =>
      obtain ⟨he, _, hts, hd⟩ := ih he h
      obtain ⟨hs, _, hus, hd'⟩ := ih' hs h'
      exact ⟨fun _ => .conditional he h.carries_expression hs h'.carries_statement fun _ => .refl _ _,
        _, (hts.append hus.keep).keep.keep, .ifThen hd hd'⟩
  | ifElse h h' hopen h'' ih ih' ih'' =>
    cases ht with
    | same => exact hsame whole
    | ifElse he hs ha =>
      rw [← hs.endsOpen_eq] at hopen
      obtain ⟨he, _, hts, hd⟩ := ih he h
      obtain ⟨hs, _, hus, hd'⟩ := ih' hs h'
      obtain ⟨ha, _, hvs, hd''⟩ := ih'' ha h''
      exact ⟨fun _ => .conditional he h.carries_expression hs h'.carries_statement ha,
        _, (hts.append (hus.append hvs.keep).keep).keep.keep, .ifElse hd hd' hopen hd''⟩
  | while_ h h' ih ih' =>
    cases ht with
    | same => exact hsame whole
    | while_ he hs =>
      obtain ⟨he, _, hts, hd⟩ := ih he h
      obtain ⟨hs, _, hus, hd'⟩ := ih' hs h'
      refine ⟨fun _ => ?_, _, (hts.append hus.keep).keep.keep, .while_ hd hd'⟩
      exact .loop (.some he) (Derives.carries_condition (.someClause h)) .none (@Derives.noClause true).carries_step
        fun l => hs (some l)
  | firstVariables h ih =>
    cases ht with
    | same => exact hsame whole
    | cons hd hds =>
      cases hds
      cases hd with
      | «variables» hvs =>
        obtain ⟨hvs, _, hts, hd⟩ := ih hvs h
        exact ⟨fun _ => (hvs.before _).before _, _, (hts.snoc _).keep, .firstVariables hd⟩
  | firstExpression h ih =>
    cases ht with
    | same => exact hsame whole
    | cons hd hds =>
      cases hds
      cases hd with
      | statement hs =>
        cases hs with
        | same => exact hsame whole
        | expression he =>
          obtain ⟨he, _, hts, hd⟩ := ih he h
          exact ⟨fun _ => ((he.mono fun _ h => h.toView).before _).before _, _, hts.snoc _, .firstExpression hd⟩
  | for_ h1 h2 h3 h4 ih1 ih2 ih3 ih4 =>
    cases ht with
    | same => exact hsame whole
    | for_ hfirst hc hd hs =>
      obtain ⟨hfirst, _, hts, hd1⟩ := ih1 hfirst h1
      obtain ⟨hc, _, hus, hd2⟩ := ih2 hc h2
      obtain ⟨hd, _, hvs, hd3⟩ := ih3 hd h3
      obtain ⟨hs, _, hws, hd4⟩ := ih4 hs h4
      refine ⟨fun l => ?_, _, (hts.append (hus.append (hvs.append hws.keep).keep)).keep.keep, .for_ hd1 hd2 hd3 hd4⟩
      refine .modify (fun _ => View.beginBlock) ((hfirst l).bind (h1.carries_first _ l) fun _ => ?_)
      exact (Agrees.mono (.loop hc h2.carries_condition hd h3.carries_step fun l => hs (some l))
        fun _ h => h.toView).before _
  | return_ h ih =>
    cases ht with
    | same => exact hsame whole
    | return_ hc =>
      obtain ⟨hc, _, hts, hd⟩ := ih hc h
      exact ⟨fun _ => (Agrees.orNil hc).before _, _, (hts.snoc _).keep, .return_ hd⟩
  | someInitializer h ih =>
    cases ht with
    | same => exact hsame whole
    | some he =>
      obtain ⟨he, _, hts, hd⟩ := ih he h
      exact ⟨.some he, _, hts.keep, .someInitializer hd⟩
  | lastVariable hx h ih =>
    cases ht with
    | same => exact hsame whole
    | cons hc hvs =>
      cases hvs
      obtain ⟨hc, _, hts, hd⟩ := ih hc h
      exact ⟨((Agrees.variable_ hx (.orNil hc)).mono fun _ h => h.toView).before _, _, hts.keep, .lastVariable hx hd⟩
  | moreVariables hx h h' ih ih' =>
    cases ht with
    | same => exact hsame whole
    | cons hc hvs =>
      obtain ⟨hc, _, hts, hd⟩ := ih hc h
      obtain ⟨hvs, _, hus, hd'⟩ := ih' hvs h'
      refine ⟨?_, _, (hts.append hus.keep).keep, .moreVariables hx hd hd'⟩
      refine ((Agrees.variable_ hx (.orNil hc)).mono fun _ h => h.toView).bind ?_ fun _ => hvs.before _
      exact fun σ hσ => Ensures.variable_block hx hσ (Clause.coded (h.coded owner))
  | functionDeclaration hx h ih =>
    cases ht with
    | function hbody =>
      obtain ⟨hbody, _, hts, hd⟩ := ih (show Form.Alike R _ .function (_, _) (_, _) from ⟨rfl, hbody⟩) h
      exact ⟨fun _ => (Agrees.functionVariable hx (.routine (.inl rfl) (h.coded owner).1 hbody)).before _,
        _, hts.keep.keep, .functionDeclaration hx hd⟩
  | variableDeclaration h ih =>
    cases ht with
    | «variables» hvs =>
      obtain ⟨hvs, _, hts, hd⟩ := ih hvs h
      exact ⟨fun _ => hvs.before _, _, (hts.snoc _).keep, .variableDeclaration hd⟩
  | statement h ih =>
    cases ht with
    | statement hs =>
      obtain ⟨hs, _, hts, hd⟩ := ih hs h
      exact ⟨fun l => (hs l).mono fun _ h => h.toView, _, hts, .statement hd⟩
  | declaration h h' ih ih' =>
    cases ht with
    | same => exact hsame whole
    | cons hd hds =>
      obtain ⟨hd, _, hts, hd1⟩ := ih hd h
      obtain ⟨hds, _, hus, hd2⟩ := ih' hds h'
      exact ⟨fun l => (hd l).bind (h.carries_declaration _ l) fun _ => (hds _).before _,
        _, hts.append hus, .declaration hd1 hd2⟩

end

/-! ### Scripts and object units -/

/-- Two members of a unit that differ in spelling. The names of fields are not bound. -/
inductive Member.Alike (R : Respelling) : Member → Member → Prop
  | field {x c c'} : Clause.Alike R [] c c' → Member.Alike R (.field x c) (.field x c')
  | method {x ps body body'} : Declarations.Alike R (ps ++ []) body body' →
      Member.Alike R (.method x ps body) (.method x ps body')

structure ObjectUnit.Alike (R : Respelling) (unit unit' : ObjectUnit) : Prop where
  parents_eq : unit'.parents = unit.parents
  members : List.Forall₂ (Member.Alike R) unit.members unit'.members

section

variable {α β : Type} {V : Scopes → Prop} {f : α → Generate β} {P : List TokenKind → List TokenKind → Prop}
  {R : Respelling} {owner : Option String} {path name source source' : String} {ts : List TokenKind}

theorem Generate.Carries.mapM {xs : List α} (h : ∀ a ∈ xs, Carries V V (f a)) : Carries V V (xs.mapM f) := by
  induction xs with
  | nil => exact fun σ hσ => .pure hσ
  | cons x xs ih =>
    rw [forall_mem_cons] at h
    rw [mapM_cons]
    exact fun σ hσ => (h.1 σ hσ).bind fun _ σ1 h1 => (ih h.2 σ1 h1).bind fun _ _ h => .pure h

theorem Generate.Carries.member (hm : m.Coded owner) : Carries (View owner []) (View owner []) (m.code owner) := by
  intro σ hσ
  cases m with
  | field x c =>
    refine (Clause.coded hm σ hσ.toTidy).bind fun _ σ1 h => ?_
    exact (Carries.name x σ1 (hσ.performs h.performs h.tidy)).bind fun _ _ h => .pure h
  | method x ps body =>
    refine (Ensures.routine (.inr rfl) hσ.toTidy hm.1 hm.2).bind fun _ σ1 h => ?_
    exact (Carries.name x σ1 (hσ.performs h.1.performs h.1.tidy)).bind fun _ _ h => .pure h

theorem Member.Alike.agrees {m' : Member} (h : m.Alike R m') (hm : m.Derived) (hR : R.Sound owner) (hP : R.Writes P) :
    Agrees (View owner []) (m.code owner) (m'.code owner) := by
  cases h with
  | field hc => exact (Agrees.orNil (hm.choose_spec.respelled hR hP hc).1).before _
  | method hbody =>
    have hfunction := hm.choose_spec
    have hsame := hfunction.respelled hR hP (show Form.Alike R _ .function (_, _) (_, _) from ⟨rfl, hbody⟩)
    exact (Agrees.routine (.inr rfl) (hfunction.coded owner).1 hsame.1).before _

theorem Generate.Agrees.members {ms ms' : List Member} (h : List.Forall₂ (Member.Alike R) ms ms')
    (hms : ∀ m ∈ ms, m.Derived) (hR : R.Sound owner) (hP : R.Writes P) :
    Agrees (View owner []) (ms.mapM (Member.code owner)) (ms'.mapM (Member.code owner)) := by
  induction h with
  | nil => exact .refl _ _
  | cons hm _ ih =>
    rw [forall_mem_cons] at hms
    rw [mapM_cons, mapM_cons]
    exact (hm.agrees hms.1 hR hP).bind (.member (hms.1.coded owner)) fun _ => (ih hms.2).before _

theorem toOption_compileScript (hscan : Scans source ts) (h : Derives true .declarations script ts) :
    (compileScript name source).toOption.map Routine.withoutLines = (script.generate name).toOption := by
  have hcompiled := compileScript_of_derives name hscan h
  cases hgenerate : script.generate name with
  | error m =>
    rw [hgenerate] at hcompiled
    obtain ⟨errors, hcompile⟩ := hcompiled
    rw [hcompile]
    rfl
  | ok r =>
    rw [hgenerate] at hcompiled
    obtain ⟨r', hcompile, rfl, _⟩ := hcompiled
    rw [hcompile]
    rfl

theorem toOption_compileObject (hscan : Scans source ts) (h : unit.Derives ts) :
    (compileObject path source).toOption.map Routine.withoutLines = (unit.generate path).toOption.map Prod.snd := by
  have hcompiled := compileObject_of_derives path hscan h
  cases hgenerate : unit.generate path with
  | error m =>
    rw [hgenerate] at hcompiled
    obtain ⟨errors, hcompile⟩ := hcompiled
    rw [hcompile]
    rfl
  | ok r =>
    rw [hgenerate] at hcompiled
    obtain ⟨r', hcompile, hr, _⟩ := hcompiled
    rw [hcompile]
    exact congrArg some hr

theorem Scopes.start_view (kind : RoutineKind) (name : String) (hobject : decide (kind = .object) = owner.isSome)
    (hscript : kind = .script → owner = none) : View owner [] ⟨.start kind name owner, []⟩ := by
  refine ⟨start_tidy kind name hobject hscript, cons_subset.mpr ⟨?_, nil_subset _⟩⟩
  cases kind <;> simp

theorem toOption_bind_congr {ε : Type} {x x' : Except ε α} (h : x.toOption = x'.toOption) (f : α → Except ε β) :
    (x >>= f).toOption = (x' >>= f).toOption := by
  cases x <;> cases x' <;> cases h <;> rfl

theorem Derives.fields_respelled : {vs : Declarators} → {ts : List TokenKind} → {ms ms' : List Member} →
    Derives true .variables vs ts → R.Sound owner → R.Writes P → List.Forall₂ (Member.Alike R) (vs.fields ++ ms) ms' →
    ∃ vs' ms'' ts', ms' = vs'.fields ++ ms'' ∧ List.Forall₂ (Member.Alike R) ms ms'' ∧ Rewrites P ts ts' ∧
      Derives true .variables vs' ts'
  | .nil, _, _, _, h, _, _, _ => nomatch h
  | .cons x _ _, _, _, _, .lastVariable hx h, hR, hP, .cons (.field hc) hms => by
    obtain ⟨-, _, hts, hd⟩ := h.respelled hR hP hc
    exact ⟨.cons x _ .nil, _, _, rfl, hms, hts.keep, .lastVariable hx hd⟩
  | .cons x _ _, _, _, _, .moreVariables hx h h', hR, hP, .cons (.field hc) hms => by
    obtain ⟨-, _, hts, hd⟩ := h.respelled hR hP hc
    obtain ⟨vs', _, _, rfl, hms, hus, hd'⟩ := fields_respelled h' hR hP hms
    exact ⟨.cons x _ vs', _, _, rfl, hms, (hts.append hus.keep).keep, .moreVariables hx hd hd'⟩

theorem DerivesMembers.respelled {ms ms' : List Member} (h : DerivesMembers ms ts) (hR : R.Sound owner)
    (hP : R.Writes P) (hms : List.Forall₂ (Member.Alike R) ms ms') :
    ∃ ts', Rewrites P ts ts' ∧ DerivesMembers ms' ts' := by
  induction h generalizing ms' with
  | nil =>
    cases hms
    exact ⟨[], .nil, .nil⟩
  | fields h _ ih =>
    obtain ⟨_, _, _, rfl, hms, hts, hd⟩ := h.fields_respelled hR hP hms
    obtain ⟨_, hus, hd'⟩ := ih hms
    exact ⟨_, (hts.append hus.keep).keep, .fields hd hd'⟩
  | method hx h _ ih =>
    obtain _ | ⟨hm, hms⟩ := hms
    cases hm with
    | method hbody =>
      obtain ⟨-, _, hts, hd⟩ := h.respelled hR hP (show Form.Alike R _ .function (_, _) (_, _) from ⟨rfl, hbody⟩)
      obtain ⟨_, hus, hd'⟩ := ih hms
      exact ⟨_, (hts.append hus).keep.keep, .method hx hd hd'⟩

/-- Scripts that differ in spelling compile to the same code, or neither compiles. -/
theorem compileScript_alike {script' : Declarations} (h : script.Alike R [] script') (hR : R.Sound none)
    (hP : R.Writes P) (hscript : Derives true .declarations script ts) :
    (∃ ts', Rewrites P ts ts' ∧ Derives true .declarations script' ts') ∧
    ∀ {ts' name source source'}, Derives true .declarations script' ts' → Scans source ts → Scans source' ts' →
      (compileScript name source).toOption.map Routine.withoutLines
        = (compileScript name source').toOption.map Routine.withoutLines := by
  obtain ⟨hcode, hwritten⟩ := hscript.respelled hR hP h
  refine ⟨hwritten, fun {_ name _ _} hscript' hscan hscan' => ?_⟩
  rw [toOption_compileScript hscan hscript, toOption_compileScript hscan' hscript']
  exact toOption_bind_congr (hcode none ⟨.start .script name none, []⟩
    ⟨start_view .script name rfl fun _ => rfl, .inl rfl⟩) _

/-- Object units that differ in spelling compile to the same code, or neither compiles. -/
theorem compileObject_alike {unit' : ObjectUnit} (h : unit.Alike R unit') (hR : ∀ path, R.Sound (some path))
    (hP : R.Writes P) (hunit : unit.Derives ts) : (∃ ts', Rewrites P ts ts' ∧ unit'.Derives ts') ∧
    ∀ {ts' path source source'}, unit'.Derives ts' → Scans source ts → Scans source' ts' →
      (compileObject path source).toOption.map Routine.withoutLines
        = (compileObject path source').toOption.map Routine.withoutLines := by
  obtain ⟨us, rfl, hmembers⟩ := hunit
  obtain ⟨_, hts, hd⟩ := hmembers.respelled (hR "") hP h.members
  refine ⟨⟨_, (Rewrites.refl _).append hts, _, by rw [h.parents_eq], hd⟩,
    fun {_ path _ _} hunit' hscan hscan' => ?_⟩
  have hcode : Agrees (View (some path) []) (unit.code path) (unit'.code path) := by
    unfold ObjectUnit.code
    rw [h.parents_eq]
    refine .andThen (Carries.name path) fun _ => .andThen (.mapM fun parent _ => ?_) fun _ =>
      (Agrees.members h.members hmembers.derived (hR path) hP).before _
    exact fun σ hσ => (Carries.name parent σ hσ).bind fun _ _ h => .pure h
  rw [toOption_compileObject hscan ⟨us, rfl, hmembers⟩, toOption_compileObject hscan' hunit']
  exact congrArg (Option.map Prod.snd) (toOption_bind_congr (hcode ⟨.start .object path (some path), []⟩
    (start_view .object path rfl nofun)) _)

end

end Mudscript
