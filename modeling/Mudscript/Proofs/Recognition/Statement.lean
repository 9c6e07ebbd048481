import Mudscript.Proofs.Recognition.Expression

/-!
# Scripts that were read

Statements and declarations take the tokens of a tree, and so do whole scripts: the tokens of a script
that compiles are the rendering of some declarations.
-/

namespace Mudscript

open Compile

variable {r : Routine} {source : String}

namespace Compile

variable {bound : Nat} {g : Grammar} {c : Compiler} {text : List (Option TokenKind)} {ts : List TokenKind}

/-! ### Variables -/

theorem expression_yields (hg : Reads g) (h : c.Past text ts) :
    Yields (expression bound g) c fun _ => TookExpression .assignment text ts :=
  precedence_yields hg h (by decide) (by decide)

theorem initializer_yields (hg : Reads g) (h : c.Past text ts) :
    Yields (initializer bound g) c fun _ => Took .initializer text ts := by
  unfold initializer
  refine .accept h nofun (fun _ c1 h1 => ?_) fun _ => ?_
  · exact (expression_yields hg h1).mono fun _ c2 ⟨e, us, he, h2, _⟩ =>
      ⟨_, _, .someInitializer he, by simpa using h2, trivial⟩
  · rw [if_neg nofun]
    exact .last (.silent h fun _ c1 h1 => .pure ⟨.none, [], .noInitializer, by simpa using h1, trivial⟩)

theorem declareVariable_yields (hg : Reads g) (h : c.Past text ts) (x : String) :
    Yields (declareVariable bound g x) c fun _ => Took .initializer text ts := by
  unfold declareVariable
  refine .silent h fun global c1 h1 => ?_
  split
  all_goals exact .silent h1 fun _ c2 h2 => (initializer_yields hg h2).took

def Lengthens (text : List (Option TokenKind)) (ts : List TokenKind) (c : Compiler) : Prop :=
  ∃ us, c.Past text (ts ++ us) ∧
    ∀ {x : String} {value : Clause} {vs : List TokenKind}, IsName x → Derives true .initializer value vs →
      ∃ declared, Derives true .variables declared (.name x :: (vs ++ us))

def another (item : String → Compile Unit) (what : String) : Compile Bool := do
  if ← accept (.symbol .comma) then
    item (← expectName what)
    return true
  else return false

section

variable {item : String → Compile Unit} {what x : String}
  (hitem : ∀ {c ts}, c.Past text ts → ∀ x, Yields (item x) c fun _ => Took .initializer text ts)

include hitem

theorem another_yields (h : c.Past text ts) (k : Nat) :
    Yields (repeatUpTo (another item what) k) c fun _ => Lengthens text ts := by
  induction k generalizing c ts with
  | zero => exact .last .exhaust
  | succ k ih =>
    rw [repeatUpTo]
    simp only [another, bind_assoc]
    refine .accept h (by decide) (fun _ c1 h1 => ?_) fun _ => ?_
    · simp only [if_true, bind_assoc, pure_bind]
      refine .expectName h1 fun y c2 hy h2 => .bind (hitem h2 y) ?_
      rintro _ c3 ⟨value, us, hvalue, h3, _⟩
      refine (ih h3).mono ?_
      rintro _ c4 ⟨vs, h4, hmore⟩
      obtain ⟨declared, hdeclared⟩ := hmore hy hvalue
      exact ⟨_, by simpa using h4, fun hx hfirst => ⟨_, .moreVariables hx hfirst hdeclared⟩⟩
    · simp only [Bool.false_eq_true, if_false, pure_bind]
      exact .pure ⟨[], by simpa using h, fun hx hvalue => ⟨_, by simpa using .lastVariable hx hvalue⟩⟩

variable (what) in
theorem declarators_yields {message : String} (hx : IsName x) (h : c.Past text (ts ++ [.name x])) : Yields (do
      item x
      repeatUpTo (another item what) bound
      expect (.symbol .semicolon) message) c fun _ => TookUpTo (.symbol .semicolon) .variables text ts := by
  refine .bind (hitem h x) fun _ c1 ⟨value, us, hvalue, h1, _⟩ => ?_
  refine .bind (another_yields hitem h1 bound) fun _ c2 ⟨vs, h2, hmore⟩ => ?_
  obtain ⟨declared, hdeclared⟩ := hmore hx hvalue
  exact .last (.expect h2 nofun fun c3 h3 => .pure ⟨declared, _, hdeclared, by simpa using h3⟩)

end

section

variable (hg : Reads g)

include hg

theorem variableDeclaration_yields {x : String} (hx : IsName x) (h : c.Past text (ts ++ [.name x])) :
    Yields (variableDeclaration bound g x) c fun _ => TookUpTo (.symbol .semicolon) .variables text ts :=
  declarators_yields "variable name" (fun h => declareVariable_yields hg h) hx h

/-! ### Loops -/

instance (toExit : Option Nat) : Silent (exitHere toExit) := by
  cases toExit <;> (unfold exitHere; infer_instance)

theorem loopBody_yields (h : c.Past text ts) (toExit : Option Nat) (back : Nat) :
    Yields (loopBody g toExit back) c fun _ => TookStatement text ts :=
  .silent h fun _ _ h1 => (hg.statement h1).took

theorem condition_yields {β : Type} {x} {R : β → Compiler → Prop} {what what' : String} (h : c.Past text ts)
    (hf : ∀ e us c', Derives true (.expression .assignment) e us →
      c'.Past text (ts ++ [.symbol .leftParen] ++ us ++ [.symbol .rightParen]) → Yields x c' R) : Yields (do
      expect (.symbol .leftParen) what
      expression bound g
      expect (.symbol .rightParen) what'
      x) c R :=
  .expect h nofun fun _ h1 => .closed (expression_yields hg h1) nofun hf

theorem whileStatement_yields (h : c.Past text (ts ++ [.keyword .while_])) :
    Yields (whileStatement bound g) c fun _ => TookStatement text ts := by
  rw [whileStatement_eq]
  refine .silent h fun start c1 h1 => condition_yields hg h1 fun e us c2 he h2 => ?_
  refine .silent h2 fun toExit c3 h3 => .silent h3 fun _ c4 h4 => ?_
  exact (loopBody_yields hg h4 _ _).mono fun _ c5 ⟨t, vs, ht, h5, hopen⟩ =>
    ⟨.while_ e t, _, .while_ he ht, by simpa using h5, hopen⟩

theorem expressionStatement_yields (h : c.Past text ts) : Yields (expressionStatement bound g) c fun _ =>
      TookUpTo (.symbol .semicolon) (.expression .assignment) text ts :=
  .closed (expression_yields hg h) nofun fun e us _ he h1 =>
    .last (.silent h1 fun _ _ h2 => .pure ⟨e, us, he, h2⟩)

theorem forInitializer_yields (h : c.Past text ts) :
    Yields (forInitializer bound g) c fun _ => Took .forInitializer text ts := by
  unfold forInitializer
  refine .accept h nofun (fun _ c1 h1 => .pure ⟨_, _, .noFirst, h1, trivial⟩) fun _ => ?_
  rw [if_neg nofun]
  refine .current ?_
  split
  · rename_i htype
    obtain ⟨type, htype⟩ := TokenKind.eq_type_of_isType htype
    refine .advance h htype nofun fun c1 h1 => .expectName h1 fun x c2 hx h2 => ?_
    exact (variableDeclaration_yields hg hx h2).mono fun _ c3 ⟨declared, us, hdeclared, h3⟩ =>
      ⟨_, _, .firstVariables hdeclared, by simpa using h3, trivial⟩
  · exact (expressionStatement_yields hg h).mono fun _ c1 ⟨e, us, he, h1⟩ =>
      ⟨_, _, .firstExpression he, by simpa using h1, trivial⟩

theorem forCondition_yields (h : c.Past text ts) :
    Yields (forCondition bound g) c fun _ => TookUpTo (.symbol .semicolon) .clause text ts := by
  unfold forCondition
  refine .accept h nofun (fun _ c1 h1 => .pure ⟨.none, [], .noClause, by simpa using h1⟩) fun _ => ?_
  exact .closed (expression_yields hg h) nofun fun e us c1 he h1 => .silent h1 fun _ c2 h2 =>
    .silent h2 fun _ c3 h3 => .pure ⟨.some e, us, .someClause he, h3⟩

theorem forStep_yields (h : c.Past text ts) (condition : Nat) :
    Yields (forStep bound g condition) c fun _ => TookUpTo (.symbol .rightParen) .clause text ts := by
  unfold forStep
  refine .accept h nofun (fun _ c1 h1 => .pure ⟨.none, [], .noClause, by simpa using h1⟩) fun _ => ?_
  rw [if_neg nofun]
  refine .silent h fun toBody c1 h1 => .silent h1 fun step c2 h2 => ?_
  refine .bind (expression_yields hg h2) fun _ c3 ⟨e, us, he, h3, _⟩ => .silent h3 fun _ c4 h4 => ?_
  exact .expect h4 nofun fun c5 h5 => .silent h5 fun _ c6 h6 => .silent h6 fun _ c7 h7 =>
    .pure ⟨.some e, us, .someClause he, h7⟩

theorem forStatement_yields (h : c.Past text (ts ++ [.keyword .for_])) :
    Yields (forStatement bound g) c fun _ => TookStatement text ts := by
  rw [forStatement_eq]
  refine .silent h fun _ c1 h1 => .expect h1 nofun fun c2 h2 => ?_
  refine .bind (forInitializer_yields hg h2) fun _ c3 ⟨first, us, hfirst, h3, _⟩ => .silent h3 fun _ c4 h4 => ?_
  refine .bind (forCondition_yields hg h4) fun toExit c5 ⟨condition, vs, hcondition, h5⟩ => ?_
  refine .bind (forStep_yields hg h5 _) fun back c6 ⟨step, ws, hstep, h6⟩ => ?_
  exact (loopBody_yields hg h6 toExit back).took.mono fun _ c7 ⟨t, xs, ht, h7, hopen⟩ =>
    ⟨.for_ first condition step t, _, .for_ hfirst hcondition hstep ht, by simpa using h7, hopen⟩

/-! ### Statements -/

theorem ifStatement_yields (h : c.Past text (ts ++ [.keyword .if_])) :
    Yields (ifStatement bound g) c fun _ => TookStatement text ts := by
  rw [ifStatement_eq]
  refine condition_yields hg h fun e us c1 he h1 => ?_
  refine .silent h1 fun toElse c2 h2 => .silent h2 fun _ c3 h3 => .bind (hg.statement h3) fun _ c4 hyes => ?_
  refine hyes.silent fun toEnd c5 hyes => hyes.silent fun _ c6 hyes => hyes.silent fun _ c7 hyes => ?_
  obtain ⟨yes, vs, hyes, h7, hopen⟩ := hyes
  refine .took (.accept h7 nofun (fun helse c8 h8 => ?_) fun hne => ?_)
  · -- The `else` shows that the consequent leaves no conditional open.
    have hclosed : yes.endsOpen = false := by
      by_contra hyes
      exact hopen (by simpa using hyes) helse
    exact (hg.statement h8).mono fun _ c9 ⟨no, ws, hno, h9, hopen'⟩ =>
      ⟨.ifElse e yes no, _, .ifElse he hyes (fun _ => hclosed) hno, by simpa using h9, hopen'⟩
  · exact .pure ⟨.ifThen e yes, _, .ifThen he hyes, by simpa using h7, fun _ => hne⟩

theorem returnStatement_yields (h : c.Past text (ts ++ [.keyword .return_])) :
    Yields (returnStatement bound g) c fun _ => TookStatement text ts := by
  unfold returnStatement
  refine .accept h nofun (fun _ c1 h1 => ?_) fun _ => ?_
  · rw [if_pos rfl]
    exact .last (.silent h1 fun _ c2 h2 => .pure ⟨_, _, .return_ .noClause, by simpa using h2, nofun⟩)
  · exact .closed (expression_yields hg h) nofun fun e us c1 he h1 => .last (.silent h1 fun _ c2 h2 =>
      .pure ⟨_, _, .return_ (.someClause he), by simpa using h2, nofun⟩)

end

theorem breakStatement_yields (h : c.Past text (ts ++ [.keyword .break_])) :
    Yields breakStatement c fun _ => TookStatement text ts := by
  refine .scope ?_
  split
  · exact .last (.mistake h.reported)
  · refine .silent h fun _ c2 h2 => .silent h2 fun _ c3 h3 => .silent h3 fun _ c4 h4 => ?_
    exact .last (.expect h4 (by decide) fun c5 h5 =>
      .pure ⟨_, _, .break_, by simpa using h5, fun h => absurd h (by decide)⟩)

theorem continueStatement_yields (h : c.Past text (ts ++ [.keyword .continue_])) :
    Yields continueStatement c fun _ => TookStatement text ts := by
  refine .scope ?_
  split
  · exact .last (.mistake h.reported)
  · refine .silent h fun _ c2 h2 => .silent h2 fun _ c3 h3 => ?_
    exact .last (.expect h3 (by decide) fun c4 h4 =>
      .pure ⟨_, _, .continue_, by simpa using h4, fun h => absurd h (by decide)⟩)

theorem blockStatement_yields (hg : Reads g) (h : c.Past text (ts ++ [.symbol .leftBrace])) : Yields (do
      beginBlock
      block bound g
      endBlock) c fun _ => TookStatement text ts := by
  refine .silent h fun _ c1 h1 => .bind (block_yields hg h1) fun _ c2 ⟨body, us, hbody, h2⟩ => ?_
  exact .last (.silent h2 fun _ c3 h3 => .pure ⟨_, _, .block hbody, by simpa using h3, nofun⟩)

theorem statement_yields (hg : Reads g) (h : c.Past text ts) :
    Yields (statement bound g) c fun _ => TookStatement text ts := by
  refine .current ?_
  split
  · rename_i hkind
    exact .advance h hkind nofun fun c1 h1 => ifStatement_yields hg h1
  · rename_i hkind
    exact .advance h hkind nofun fun c1 h1 => whileStatement_yields hg h1
  · rename_i hkind
    exact .advance h hkind nofun fun c1 h1 => forStatement_yields hg h1
  · rename_i hkind
    exact .advance h hkind nofun fun c1 h1 => returnStatement_yields hg h1
  · rename_i hkind
    exact .advance h hkind nofun fun c1 h1 => breakStatement_yields h1
  · rename_i hkind
    exact .advance h hkind nofun fun c1 h1 => continueStatement_yields h1
  · rename_i hkind
    exact .advance h hkind nofun fun c1 h1 => blockStatement_yields hg h1
  · exact (expressionStatement_yields hg h).mono fun _ c1 ⟨e, us, he, h1⟩ =>
      ⟨.expression e, _, .expression he, by simpa using h1, nofun⟩

/-! ### Declarations -/

theorem functionDeclaration_yields (hg : Reads g) (h : c.Past text ts) (x : String) :
    Yields (functionDeclaration bound g x) c fun _ => Took .function text ts := by
  unfold functionDeclaration
  refine .silent h fun global c1 h1 => ?_
  split
  · exact .silent h1 fun _ c2 h2 => (function_yields hg h2 .function x).took
  · exact .silent h1 fun _ c2 h2 => .silent h2 fun _ c3 h3 => function_yields hg h3 .function x

theorem typedDeclaration_yields (hg : Reads g) {type : TypeName} (h : c.Past text (ts ++ [.type type])) :
    Yields (typedDeclaration bound g) c fun _ => Took .declaration text ts := by
  unfold typedDeclaration
  refine .expectName h fun x c1 hx h1 => .check (fun _ => ?_) fun _ => ?_
  · exact (functionDeclaration_yields hg h1 x).mono fun _ c2 ⟨(xs, body), us, hf, h2, _⟩ =>
      ⟨.function x xs body, _, .functionDeclaration hx hf, by simpa using h2, trivial⟩
  · exact (variableDeclaration_yields hg hx h1).mono fun _ c2 ⟨declared, us, hdeclared, h2⟩ =>
      ⟨.variables declared, _, .variableDeclaration hdeclared, by simpa using h2, trivial⟩

theorem resume_yields {Q : Compiler → Prop} (hrecovering : c.recovering = false) (h : Q c) :
    Yields (resume bound) c fun _ => Q := by
  intro _
  rw [resume_apply, hrecovering]
  exact h

theorem declaration_yields (hg : Reads g) (h : c.Past text ts) :
    Yields (declaration bound g) c fun _ => Took .declaration text ts := by
  unfold declaration
  refine .current ?_
  split
  · rename_i htype
    obtain ⟨type, htype⟩ := TokenKind.eq_type_of_isType htype
    refine .advance h htype nofun fun c1 h1 => .bind (typedDeclaration_yields hg h1) fun _ c2 ⟨d, us, hd, h2, _⟩ => ?_
    exact resume_yields h2.recovering ⟨d, us, hd, h2, trivial⟩
  · refine .accept h nofun (fun _ c1 h1 => .mistake h1.reported) fun _ => ?_
    refine .bind (statement_yields hg h) fun _ c1 ⟨t, us, ht, h1, _⟩ => ?_
    exact resume_yields h1.recovering ⟨.statement t, us, .statement ht, h1, trivial⟩

theorem upTo_reads (n : Nat) : Reads (.upTo n) := by
  induction n with
  | zero => exact ⟨fun _ _ _ => .last .exhaust, fun _ => .last .exhaust, fun _ => .last .exhaust⟩
  | succ n ih => exact ⟨precedence_yields ih, statement_yields ih, declaration_yields ih⟩

theorem script_yields (h : c.Past text []) : Yields (script bound (.upTo bound)) c fun _ _ =>
      ∃ script ts, text = ts.map some ∧ Derives true .declarations script ts := by
  have hstop {c : Compiler} {ts : List TokenKind} (h : c.Past text ts) :
      Yields (accept .endOfText) c fun ended c' => if ended then text = ts.map some else c'.Past text ts :=
    .check (fun hend _ => h.text_eq hend) fun _ => .pure h
  exact .bind (declarations_yields bound hstop (declaration_yields (upTo_reads bound)) h)
    fun _ c1 ⟨script, us, hscript, htext⟩ _ => ⟨script, us, htext, hscript⟩

/-- The text of a compilation that succeeds scans without a fault, and its tokens are what was read. -/
theorem run_yields {scope : Scope} (body : Nat → Grammar → Compile Unit)
    {P : List TokenKind → Prop} (hunexhausted : (last source scope body).exhausted = false)
    (hbody : ∀ {bound c text}, c.Past text [] →
      Yields (body bound (.upTo bound)) c fun _ _ => ∃ ts, text = ts.map some ∧ P ts)
    (h : run source scope body = .ok r) : ∃ kinds, Scans source kinds ∧ P kinds := by
  let tokens := Tokens.ofSource source
  rw [run] at h
  split at h
  case isFalse => cases h
  case isTrue hempty =>
    have herrors := Array.isEmpty_iff.mp hempty
    have hstart : (Compiler.start tokens scope).errors = #[] := (body _ (.upTo _)).errors_eq herrors
    have hproper : ∀ k, some k ∈ tokens.items.map lexedKind? → k.Proper := by
      intro k hk
      obtain ⟨item, hitem, hkind⟩ := List.mem_map.mp hk
      cases item with
      | error e => cases hkind
      | ok t => exact Option.some.inj hkind ▸ Tokens.ofSource_proper source t hitem
    have hpast := @Compiler.moveTo_past _ _ [] _ rfl rfl rfl (Tokens.ofSource_ne_endOfText source) hproper hstart
    obtain ⟨ts, hks, hP⟩ := hbody hpast ⟨herrors, hunexhausted⟩
    exact ⟨ts, scans_iff.mpr hks, hP⟩

end Compile

/-- The text of a script that compiles scans without a fault, and its tokens are a rendering of some
declarations. -/
theorem derives_of_compileScript {name : String} (h : compileScript name source = .ok r) :
    ∃ kinds script, Scans source kinds ∧ Derives true .declarations script kinds := by
  obtain ⟨kinds, hscan, script, hscript⟩ := Compile.run_yields Compile.script
    (P := fun ts => ∃ script, Derives true .declarations script ts) (last_script_orderly name source).unexhausted
    (fun h => (Compile.script_yields h).mono fun _ _ ⟨script, ts, hks, hscript⟩ => ⟨ts, hks, script, hscript⟩) h
  exact ⟨kinds, script, hscan, hscript⟩

end Mudscript
