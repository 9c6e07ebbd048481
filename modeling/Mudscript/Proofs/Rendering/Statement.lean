import Mudscript.Proofs.Rendering.Expression

/-!
# Renderings of functions, statements and declarations
-/

namespace Mudscript

open Compile (Mirrors MirrorsAt)
open List
open Generate (withCount)

variable {condition step : Clause}

variable {value : Clause} {body : Declarations} {xs : List String} {l : Option LoopSite}
    {type : Option TypeName} {t : Statement} {x : String}

/-! ### Constructs in one sequence -/

namespace Compile

variable (bound : Nat) (g : Grammar)

theorem function_eq (kind : RoutineKind) (x : String) : function bound g kind x = (do
      enterFunction kind x
      beginBlock
      expect (.symbol .leftParen) "'(' after function name"
      (do unless ← check (.symbol .rightParen) do repeatUpTo parameter bound)
      expect (.symbol .rightParen) "')' after parameters"
      expect (.symbol .leftBrace) "'\x7b' before function body"
      block bound g
      leaveFunction) := by
  unfold function
  refine bind_congr fun _ => bind_congr fun _ => bind_congr fun _ => ?_
  rw [bind_assoc]
  refine bind_congr fun atEnd => ?_
  cases atEnd <;> simp

def conditional (alternative : Compile Unit) : Compile Unit := do
  expect (.symbol .leftParen) "'(' after 'if'"
  expression bound g
  expect (.symbol .rightParen) "')' after condition"
  let toElse ← emitJump .jumpIfFalse
  emit .pop
  g .statement
  let toEnd ← emitJump .jump
  patchJump toElse
  emit .pop
  alternative
  patchJump toEnd

theorem ifStatement_eq :
    ifStatement bound g = conditional bound g (do if ← accept (.keyword .else_) then g .statement) := by
  unfold ifStatement conditional
  refine bind_congr fun _ => bind_congr fun _ => bind_congr fun _ => bind_congr fun _ => bind_congr fun _ =>
    bind_congr fun _ => bind_congr fun _ => bind_congr fun _ => bind_congr fun _ => ?_
  rw [bind_assoc]
  refine bind_congr fun hasElse => ?_
  cases hasElse <;> simp

/-- A declaration, up to the point where the compiler comes to itself after a mistake. -/
def plainDeclaration : Compile Unit := do
  if (← current).isType then
    advance
    typedDeclaration bound g
  else if ← accept (.keyword .inherit) then mistake .inheritOutsideObject
  else statement bound g

theorem declaration_eq : declaration bound g = plainDeclaration bound g >>= fun _ => resume bound := by
  rw [declaration, plainDeclaration, bind_assoc]
  refine bind_congr fun ahead => ?_
  split
  · rw [bind_assoc]
  · rw [bind_assoc]
    refine bind_congr fun found => ?_
    cases found <;> rfl

def exitHere : Option Nat → Compile Unit
  | some toExit => do
    patchJump toExit
    emit .pop
  | none => pure ()

def loopBody (toExit : Option Nat) (back : Nat) : Compile Unit := do
  beginLoop back
  g .statement
  emitLoop back
  exitHere toExit
  endLoop

theorem whileStatement_eq : whileStatement bound g = (do
      let start ← here
      expect (.symbol .leftParen) "'(' after 'while'"
      expression bound g
      expect (.symbol .rightParen) "')' after condition"
      let toExit ← emitJump .jumpIfFalse
      emit .pop
      loopBody g (some toExit) start) := by
  simp only [whileStatement, loopBody, exitHere, bind_assoc]

theorem forStatement_eq : forStatement bound g = (do
      beginBlock
      expect (.symbol .leftParen) "'(' after 'for'"
      forInitializer bound g
      let condition ← here
      let toExit ← forCondition bound g
      let back ← forStep bound g condition
      loopBody g toExit back
      endBlock) := by
  simp only [forStatement, loopBody, bind_assoc]
  refine bind_congr fun _ => bind_congr fun _ => bind_congr fun _ => bind_congr fun _ =>
    bind_congr fun toExit => bind_congr fun _ => bind_congr fun _ => bind_congr fun _ => bind_congr fun _ => ?_
  cases toExit <;> simp [exitHere]

end Compile

/-! ### Arguments -/

namespace Generate

variable {count : Nat}

theorem withCount_of_le (h : count ≤ Compile.maxArguments) (code : List Instruction) :
    withCount count code = pure (code, count) := if_pos h

theorem withCount_of_lt (h : Compile.maxArguments < count) (code : List Instruction) :
    withCount count code = throw .tooManyArguments := if_neg (Nat.not_le.mpr h)

theorem withCount_append (code more : List Instruction) :
    withCount count (code ++ more) = withCount count more >>= fun r => pure (code ++ r.1, r.2) := by
  obtain h | h := Nat.lt_or_ge Compile.maxArguments count |>.symm
  · rw [withCount_of_le h, withCount_of_le h]
    rfl
  · rw [withCount_of_lt h, withCount_of_lt h]
    rfl

theorem bind_withCount_eq_error {g} (h : Compile.maxArguments < count)
    (σ : Scopes) : ∃ m, (g >>= withCount count) σ = .error m := by
  cases hg : g σ with
  | error m => exact ⟨m, bind_eq_of_error hg⟩
  | ok r =>
    refine ⟨.tooManyArguments, (bind_eq_of_ok hg).trans ?_⟩
    rw [withCount_of_lt h]
    rfl

end Generate

namespace Compile.Mirrors

variable {γ δ : Type} {owner : Option String} {ts : List TokenKind} {s : Scopes} {ps : List Piece}
  {c : Compiler} {R : γ → Compiler → δ → Prop}

theorem countArgument {count : Nat} {f g} (h : c.At owner ts s ps) (hcount : count ≤ maxArguments)
    (hfail : count = maxArguments → ∃ m, g c.scopes.outline = .error m)
    (hf : count < maxArguments → Mirrors (f (count + 1)) g c R) : Mirrors ((if count = maxArguments then do
        mistake .tooManyArguments
        return count
      else return count + 1) >>= f) g c R := by
  by_cases hmax : count = maxArguments
  · obtain ⟨m, hm⟩ := hfail hmax
    rw [if_pos hmax]
    exact of_error hm ((f count).errors_ne (mistake_errors_ne h.reported _))
  · rw [if_neg hmax]
    exact hf (Nat.lt_of_le_of_ne hcount hmax)

end Compile.Mirrors

namespace Follows

variable {owner : Option String} {e : Expression} {a : Arguments} {ts us vs ws : List TokenKind}

theorem lastArgument (he : Spine owner .assignment e ts) : Follows owner .argumentList (.cons e .nil) ts := by
  intro m k count rest c s ps hm hk hcount hat
  obtain ⟨k, rfl⟩ : ∃ k', k = k' + 1 :=
    ⟨k - 1, by have := length_pos_of_ne_nil he.nonempty; omega⟩
  rw [Compile.argumentsFrom]
  simp only [Compile.argument, Compile.operand, Arguments.code, Arguments.length, bind_assoc, pure_bind,
    append_nil]
  refine .bind (he.inside hm (by decide) (.of_precedence rfl rfl) hat) fun _ c1 code h1 => ?_
  refine .countArgument h1 hcount (fun hmax => ?_) fun hlt => .reject h1 (by simp) ?_
  · refine ⟨.tooManyArguments, ?_⟩
    rw [Generate.withCount_of_lt (by omega)]
    rfl
  · have hle : count + (0 + 1) ≤ Compile.maxArguments := hlt
    rw [Generate.withCount_of_le hle]
    exact .pure ⟨rfl, h1⟩

theorem argument (he : Spine owner .assignment e ts) (ha : Follows owner .argumentList a us) :
    Follows owner .argumentList (.cons e a) (ts ++ .symbol .comma :: us) := by
  intro m k count rest c s ps hm hk hcount hat
  simp only [length_append, length_cons] at hm hk
  simp only [append_assoc, cons_append] at hat
  obtain ⟨k, rfl⟩ : ∃ k', k = k' + 1 := ⟨k - 1, by omega⟩
  rw [Compile.argumentsFrom]
  simp only [Compile.argument, Compile.operand, Arguments.code, Arguments.length, bind_assoc, pure_bind]
  refine .bind (he.inside (by omega) (by decide) (.of_precedence rfl rfl) hat) fun _ c1 code h1 => ?_
  have hgenerate : (a.code owner >>= fun more => withCount (count + (a.length + 1)) (code ++ more))
      = (a.code owner >>= withCount (count + 1 + a.length)) >>= fun r => pure (code ++ r.1, r.2) := by
    rw [bind_assoc, Nat.add_right_comm, Nat.add_assoc]
    exact bind_congr fun more => Generate.withCount_append code more
  rw [hgenerate]
  refine .countArgument h1 hcount (fun hmax => ?_) fun hlt => .accept h1 fun c2 h2 => .map ?_
  · obtain ⟨m, hm⟩ := Generate.bind_withCount_eq_error (g := a.code owner)
      (show Compile.maxArguments < count + 1 + a.length by omega) c1.scopes.outline
    exact ⟨m, Generate.bind_eq_of_error hm⟩
  · refine (ha (by omega) (by omega) (by omega) h2).mono fun n c3 r h3 => ⟨h3.1, ?_⟩
    simpa using h3.2

theorem noArguments : Follows owner .arguments .nil [] := by
  intro bound m rest c s ps _ _ hat
  have hgenerate : Generate.counted .nil (Arguments.code owner .nil) = pure ([], 0) := rfl
  rw [Compile.arguments, hgenerate]
  refine .check hat ?_
  simp only [if_true, pure_bind]
  exact .expect hat fun c1 h1 => .pure ⟨rfl, by simpa using h1⟩

theorem someArguments (hopens : Form.argumentList.Opens ts) (ha : Follows owner .argumentList a ts) :
    Follows owner .arguments a ts := by
  intro bound m rest c s ps hbound hm hat
  have hlist := ha hm hbound (Nat.zero_le _) hat
  rw [Nat.zero_add] at hlist
  rw [Compile.arguments]
  refine .checkNot hat (hopens.next_ne rfl rfl) (.done (.bind hlist fun n c1 r h1 => ?_))
  exact .expect h1.2 fun c2 h2 => .pure ⟨h1.1, h2⟩

/-! ### Functions -/

theorem parameter_mirrors {γ δ : Type} {c : Compiler} {s : Scopes}
    {ps} {R : γ → Compiler → δ → Prop} {f k} (hat : c.At owner (optionalType type ++ .name x :: ts) s ps)
    (hf : MirrorsAt owner ts s ps (Compile.accept (.symbol .comma) >>= f) (k ()) R) :
    Mirrors (Compile.parameter >>= f) (Generate.parameter x >>= k) c R := by
  have hnamed : MirrorsAt owner (.name x :: ts) s ps (do
        Compile.declare (← Compile.expectName "parameter name")
        Compile.define
        f (← Compile.accept (.symbol .comma)))
      (Generate.declare x >>= fun _ => modify Scopes.define >>= k) R := fun c1 h1 =>
    .expectName h1 fun c2 h2 => .declare h2 fun c3 h3 => .define h3 fun c4 h4 => hf c4 h4
  simp only [Compile.parameter, Generate.parameter, bind_assoc]
  refine .look (.step rfl ?_)
  show Mirrors ((if c.scopes.current.arity = Compile.maxArguments then _ else _) >>= _)
    ((if c.scopes.current.arity = Compile.maxArguments then _ else _) >>= _) c R
  by_cases hmax : c.scopes.current.arity = Compile.maxArguments
  · rw [if_pos hmax, if_pos hmax]
    simp only [bind_assoc]
    exact .fail rfl (Compiler.report_errors_ne hat.reported _)
  · rw [if_neg hmax, if_neg hmax]
    simp only [bind_assoc]
    refine .rescope (F := Scopes.countParameter) hat rfl rfl rfl rfl fun c1 _ h1 => .current h1 ?_
    cases type with
    | none => exact hnamed c1 h1
    | some type =>
      rw [show optionalType (some type) ++ .name x :: ts = .type type :: .name x :: ts from rfl] at h1 ⊢
      simp only [headD_cons, TokenKind.isType, if_true, bind_assoc]
      exact .advance h1 fun c2 h2 => hnamed c2 h2

theorem lastParameter : Follows owner .parameterList [x] (optionalType type ++ [.name x]) := by
  intro k rest c s ps hk hat
  obtain ⟨k, rfl⟩ : ∃ k', k = k' + 1 := ⟨k - 1, by simp at hk; omega⟩
  rw [append_assoc] at hat
  rw [Compile.repeatUpTo]
  exact parameter_mirrors hat fun c1 h1 => .reject h1 (by simp) (.pure h1)

theorem parameter (hxs : Follows owner .parameterList xs ts) :
    Follows owner .parameterList (x :: xs) (optionalType type ++ .name x :: .symbol .comma :: ts) := by
  intro k rest c s ps hk hat
  simp only [length_append, length_cons] at hk
  obtain ⟨k, rfl⟩ : ∃ k', k = k' + 1 := ⟨k - 1, by omega⟩
  simp only [append_assoc, cons_append] at hat
  rw [Compile.repeatUpTo]
  exact parameter_mirrors hat fun c1 h1 => .accept h1 fun c2 h2 => hxs (by omega) h2

theorem noParameters : Follows owner .parameters [] [] := by
  intro k rest c s ps _ hat
  exact .check hat (.pure hat)

theorem someParameters (hopens : Form.parameterList.Opens ts)
    (hxs : Follows owner .parameterList xs ts) : Follows owner .parameters xs ts := by
  intro k rest c s ps hk hat
  exact .checkNot hat (hopens.next_ne rfl rfl) (hxs hk hat)

theorem separates_atBlockEnd (rest : List TokenKind) :
    Separates owner Compile.atBlockEnd (.symbol .rightBrace :: rest) where
  continues := by
    intro c k ts s ps hat hk
    have hbrace : k ≠ .symbol .rightBrace := by
      rintro rfl
      cases hk
    have hend : k ≠ .endOfText := by
      rintro rfl
      cases hk
    show (decide (c.current.kind = .symbol .rightBrace) || decide (c.current.kind = .endOfText), c) = _
    rw [hat.current, headD_cons, decide_eq_false hbrace, decide_eq_false hend, Bool.or_false]
  ends := by
    intro c s ps hat
    refine ⟨c, ?_, rfl, hat⟩
    show (decide (c.current.kind = .symbol .rightBrace) || decide (c.current.kind = .endOfText), c) = _
    rw [hat.current, headD_cons, decide_eq_true rfl, Bool.true_or]
  noElse := nofun

theorem block_mirrors {γ δ : Type} {bound m : Nat} {rest} {c : Compiler} {s : Scopes} {ps} {R : γ → Compiler → δ → Prop}
    {f k} (hbody : Follows owner .declarations body ts) (hbound : ts.length ≤ bound) (hm : ts.length ≤ m)
    (hat : c.At owner (ts ++ .symbol .rightBrace :: rest) s ps) (hsite : c.scopes.AtSite l)
    (hf : ∀ qs, MirrorsAt owner rest s (ps ++ qs) (f ()) (k qs) R) :
    Mirrors (Compile.block bound (.upTo m) >>= f) (body.code owner l >>= k) c R := by
  have hdeclaration : ts ≠ [] → ∃ bound m', Grammar.upTo m .declaration
      = Compile.declaration bound (.upTo m') ∧ ts.length ≤ bound ∧ ts.length ≤ m' + 1 := by
    intro hne
    obtain ⟨m, rfl⟩ : ∃ m', m = m' + 1 :=
      ⟨m - 1, by have := length_pos_of_ne_nil hne; omega⟩
    exact ⟨m + 1, m, rfl, hm, hm⟩
  simp only [Compile.block, bind_assoc]
  refine .bind (hbody hdeclaration hbound (separates_atBlockEnd rest) hat.self hsite) fun _ c1 qs h1 => ?_
  exact .expect (hat.trans h1) fun c2 h2 => hf qs c2 h2

theorem function (hxs : Follows owner .parameters xs ts) (hbody : Follows owner .declarations body us) :
    Follows owner .function (xs, body)
      (.symbol .leftParen :: (ts ++ .symbol .rightParen :: .symbol .leftBrace ::
        (us ++ [.symbol .rightBrace]))) := by
  intro bound m kind x rest c s ps hbound hm hat
  simp only [length_cons, length_append, length_nil] at hbound hm
  simp only [append_assoc, cons_append, nil_append] at hat
  rw [Compile.function_eq]
  simp only [Generate.routine]
  refine .enterFunction hat fun c1 hscopes h1 => .expect h1 fun c2 h2 =>
    .bind (hxs (by omega) h2) fun _ c3 _ h3 => .expect h3 fun c4 h4 => .expect h4 fun c5 h5 => ?_
  have hstart : c1.scopes.AtSite none := by rw [hscopes]; rfl
  have hsite : c5.scopes.AtSite none := h5.wrote.atSite hstart
  refine block_mirrors hbody (by omega) (by omega) h5 hsite fun qs c6 h6 => ?_
  exact .last (.leaveFunction hscopes h6 hat.wrote fun is c7 h7 => .pure h7)

/-! ### Simple statements -/

section

variable {γ δ : Type} {bound m : Nat} {rest : List TokenKind} {c : Compiler} {s : Scopes} {ps : List Piece}
  {R : γ → Compiler → δ → Prop} {f : Unit → Compile γ}

theorem expression_mirrors {k} (he : Spine owner .assignment e ts)
    (hbound : ts.length ≤ bound) (hm : ts.length ≤ m + 1) (hstop : Stops .assignment rest)
    (hat : c.At owner (ts ++ rest) s ps) (hf : ∀ is, MirrorsAt owner rest s (ps ++ written is) (f ()) (k is) R) :
    Mirrors (Compile.expression bound (.upTo m) >>= f) (e.code owner >>= k) c R :=
  .bind (he.precedence hbound hm (by decide) hstop hat) fun _ c' is h' => hf is c' h'

theorem expressionStatement_mirrors {k}
    (he : Spine owner .assignment e ts) (hbound : ts.length ≤ bound) (hm : ts.length ≤ m + 1)
    (hat : c.At owner (ts ++ .symbol .semicolon :: rest) s ps)
    (hf : ∀ is, MirrorsAt owner rest s (ps ++ written (is ++ [.pop])) (f ()) (k is) R) :
    Mirrors (Compile.expressionStatement bound (.upTo m) >>= f) (e.code owner >>= k) c R := by
  simp only [Compile.expressionStatement, bind_assoc]
  refine expression_mirrors he hbound hm (.of_precedence rfl rfl) hat fun is c1 h1 =>
    .expect h1 fun c2 h2 => .emit h2 trivial fun c3 h3 => hf is c3 (by simpa using h3)

theorem inside_statement (ht : Follows owner .statement t ts) (hopens : Form.statement.Opens ts) (hm : ts.length ≤ m)
    (helse : t.endsOpen = true → next rest ≠ .keyword .else_) (hat : c.At owner (ts ++ rest) s ps)
    (hsite : c.scopes.AtSite l) : Mirrors (Grammar.upTo m .statement) (t.code owner l) c
      fun _ c' qs => c'.At owner rest s (ps ++ qs) := by
  cases m with
  | zero =>
    rw [eq_nil_of_length_eq_zero (Nat.le_zero.mp hm)] at hopens
    cases hopens
  | succ m => exact (ht hm hm helse hat.self hsite).mono fun _ c' qs h' => hat.trans h'

end

theorem expression (hopens : Form.Opens (.expression .assignment) ts) (he : Spine owner .assignment e ts) :
    Follows owner .statement (.expression e) (ts ++ [.symbol .semicolon]) := by
  intro bound m l rest c hbound hm _ hat _
  simp only [length_append, length_cons, length_nil] at hbound hm
  rw [append_assoc] at hat
  have hstatement : Mirrors (Compile.expressionStatement bound (.upTo m))
      (Statement.code owner (.expression e) l) c fun _ c' qs => c'.At owner rest c.scopes qs := by
    rw [Statement.code]
    exact .last (expressionStatement_mirrors he (by omega) (by omega) hat fun is c1 h1 => .pure h1)
  refine .current hat ?_
  match ts, hopens with
  | .number _ :: us, _ | .text _ :: us, _ | .name _ :: us, _ => exact hstatement
  | .keyword word :: us, hopens =>
    cases word with
    | nil | true_ | false_ | this | function => exact hstatement
    | _ => cases hopens
  | .symbol symbol :: us, hopens =>
    cases symbol with
    | leftParen | minus | bang | doubleColon => exact hstatement
    | _ => cases hopens

theorem block (hbody : Follows owner .declarations body ts) :
    Follows owner .statement (.block body) (.symbol .leftBrace :: (ts ++ [.symbol .rightBrace])) := by
  intro bound m l rest c hbound hm _ hat hsite
  simp only [length_append, length_cons, length_nil] at hbound hm
  simp only [cons_append, append_assoc, nil_append] at hat
  rw [Statement.code]
  refine .current hat (.advance hat fun c1 h1 => .beginBlock h1 fun c2 h2 => ?_)
  have hsite2 : c2.scopes.AtSite l := h2.wrote.atSite_nil hsite
  refine block_mirrors hbody (by omega) (by omega) h2 hsite2 fun qs c3 h3 => ?_
  exact .last (.endBlock h3 fun is c4 h4 => .pure h4)

theorem return_ (hvalue : Follows owner .clause value ts) :
    Follows owner .statement (.return_ value) (.keyword .return_ :: (ts ++ [.symbol .semicolon])) := by
  intro bound m l rest c hbound hm _ hat _
  simp only [length_append, length_cons, length_nil] at hbound hm
  simp only [cons_append, append_assoc, nil_append] at hat
  rw [Statement.code]
  refine .current hat (.advance hat fun c1 h1 => ?_)
  cases value with
  | none =>
    obtain rfl : ts = [] := hvalue
    refine .accept h1 fun c2 h2 => ?_
    simp only [if_true, Compile.emitReturnNil, Clause.code?, Option.getD_none, pure_bind]
    exact .emit h2 trivial fun c3 h3 => .last (.emit h3 trivial fun c4 h4 => .pure h4)
  | some e =>
    obtain ⟨he, hopens⟩ := hvalue
    refine .reject h1 (hopens.next_ne rfl rfl) ?_
    simp only [Bool.false_eq_true, if_false, Clause.code?, Option.getD_some]
    exact expression_mirrors he (by omega) (by omega) (.of_precedence rfl rfl) h1 fun is c2 h2 =>
      .expect h2 fun c3 h3 => .last (.emit h3 trivial fun c4 h4 => .pure (by simpa using h4))

/-! ### Conditionals -/

theorem conditional_mirrors {bound m : Nat} {rest} {c : Compiler} {alternative code} (he : Spine owner .assignment e ts)
    (ht : Follows owner .statement t us) (hopens : Form.statement.Opens us)
    (hbound : ts.length ≤ bound) (hm : ts.length ≤ m + 1) (hm' : us.length ≤ m)
    (helse : t.endsOpen = true → next vs ≠ .keyword .else_)
    (hat : c.At owner (.symbol .leftParen :: (ts ++ .symbol .rightParen :: (us ++ vs))) c.scopes [])
    (hsite : c.scopes.AtSite l) (halternative : ∀ {c' : Compiler} {ps : List Piece} {l' : Option LoopSite},
      c'.At owner vs c.scopes ps → c'.scopes.AtSite l' →
      Mirrors alternative (code l') c' fun _ c'' qs => c''.At owner rest c.scopes (ps ++ qs)) :
    Mirrors (Compile.conditional bound (.upTo m) alternative)
      (Generate.conditional (e.code owner) (t.code owner) code l) c
      fun _ c' qs => c'.At owner rest c.scopes qs := by
  rw [Compile.conditional, Generate.conditional]
  refine .expect hat fun c1 h1 => expression_mirrors he hbound hm (.of_precedence rfl rfl) h1
    fun test c2 h2 => .expect h2 fun c3 h3 => .emitJump ⟨.inr rfl⟩ h3 fun c4 h4 => .emit h4 trivial fun c5 h5 => ?_
  have hsite5 : c5.scopes.AtSite (l.map (·.after (Code.length test + 4))) := by
    simpa [Nat.add_assoc] using h5.wrote.atSite hsite
  refine .bind (inside_statement ht hopens hm' helse h5 hsite5) fun _ c6 yes h6 => ?_
  refine .emitJump ⟨.inl rfl⟩ h6 fun c7 h7 => ?_
  refine .patchJump ⟨.inr rfl⟩ (written test)
    (.write .pop :: yes ++ [.write (.jump maxWord)]) (by simpa using h7) (by simp)
    (by simp; omega) fun c8 h8 => .emit h8 trivial fun c9 h9 => ?_
  have hsite9 : c9.scopes.AtSite (l.map (·.after (Code.length test + 4 + Pieces.size yes + 4))) := by
    have hsize : Code.length test + 4 + Pieces.size yes + 4
        = Code.length test + (3 + (1 + (Pieces.size yes + (3 + 1)))) := by omega
    simpa [hsize] using h9.wrote.atSite hsite
  refine .bind (halternative h9 hsite9) fun _ c10 no h10 => .last ?_
  refine .patchJump ⟨.inl rfl⟩ (written (test ++ [.jumpIfFalse (Pieces.size yes + 4), .pop]) ++ yes)
    (.write .pop :: no) (by simpa using h10) (by simp [Nat.add_assoc]) (by simp [Nat.add_comm])
    fun c11 h11 => .pure (by simpa using h11)

theorem ifThen (he : Spine owner .assignment e ts) (hopens : Form.statement.Opens us)
    (ht : Follows owner .statement t us) : Follows owner .statement (.ifThen e t)
      (.keyword .if_ :: .symbol .leftParen :: (ts ++ .symbol .rightParen :: us)) := by
  intro bound m l rest c hbound hm helse hat hsite
  simp only [length_append, length_cons] at hbound hm
  simp only [cons_append, append_assoc] at hat
  have hrest : next rest ≠ .keyword .else_ := helse rfl
  rw [Statement.code]
  refine .current hat (.advance hat fun c1 h1 => ?_)
  simp only [Compile.ifStatement_eq]
  refine (conditional_mirrors he ht hopens (by omega) (by omega) (by omega) (fun _ => hrest) h1.self
    (h1.wrote.atSite_nil hsite) fun h2 _ => ?_).mono fun _ c' qs h' => h1.trans h'
  exact .reject h2 hrest (.pure (by simpa using h2))

theorem ifElse {a} (he : Spine owner .assignment e ts) (hopens : Form.statement.Opens us)
    (ht : Follows owner .statement t us) (hclosed : t.endsOpen = false)
    (hopens' : Form.statement.Opens vs) (ha : Follows owner .statement a vs) : Follows owner .statement (.ifElse e t a)
      (.keyword .if_ :: .symbol .leftParen ::
        (ts ++ .symbol .rightParen :: (us ++ .keyword .else_ :: vs))) := by
  intro bound m l rest c hbound hm helse hat hsite
  simp only [length_append, length_cons] at hbound hm
  simp only [cons_append, append_assoc] at hat
  rw [Statement.code]
  refine .current hat (.advance hat fun c1 h1 => ?_)
  simp only [Compile.ifStatement_eq]
  refine (conditional_mirrors he ht hopens (by omega) (by omega) (by omega)
    (fun hopen => absurd (hclosed.symm.trans hopen) nofun) h1.self (h1.wrote.atSite_nil hsite)
    fun {c2 ps l'} h2 hsite2 => ?_).mono fun _ c' qs h' => h1.trans h'
  exact .accept h2.self fun c3 h3 => (inside_statement ha hopens' (by omega) helse h3
    (h3.wrote.atSite_nil hsite2)).mono fun _ c' qs h' => h2.trans h'

/-! ### Loops -/

/-- The code in front of a loop's step and body, while the end of the loop is open. -/
def testHead : Option (List Instruction) → List Instruction
  | none => []
  | some test => test ++ [.jumpIfFalse maxWord, .pop]

theorem length_testHead (test : Option (List Instruction)) : Code.length (testHead test) = Generate.testSize test := by
  cases test with
  | none => rfl
  | some test =>
    rw [testHead, Code.length_append]
    rfl

def exitOperand (start : Nat) (test : Option (List Instruction)) : Option Nat :=
  test.map fun test => start + Code.length test + 1

theorem loopBody_mirrors {γ δ : Type} {m back continueAt : Nat}
    {test : Option (List Instruction)} {step : List Instruction} {rest : List TokenKind} {c : Compiler}
    {s : Scopes} {R : γ → Compiler → δ → Prop} {f : Unit → Compile γ}
    {k : List Piece → Generate δ} (ht : Follows owner .statement t us) (hopens : Form.statement.Opens us)
    (hm : us.length ≤ m) (helse : t.endsOpen = true → next rest ≠ .keyword .else_)
    (hat : c.At owner (us ++ rest) s (written (testHead test ++ step))) (hback : continueAt + back = c.scopes.here)
    (hf : ∀ is, MirrorsAt owner rest s (written is) (f ()) (k (written is)) R) :
    Mirrors (Compile.loopBody (.upTo m) (exitOperand s.here test) continueAt >>= f)
      (do
        let body ← t.code owner (some ⟨(← get).current.depth, back⟩)
        let again ← Generate.backward (back + Pieces.size body + 3)
        let (test, exit) ← Generate.testCode (Code.length step + Pieces.size body + 3) test
        let body ← Generate.aim (Code.length exit + 3) body
        k (written (test ++ step ++ body ++ .loop again :: exit))) c R := by
  simp only [Compile.loopBody, bind_assoc]
  refine .look (.beginLoop hat fun c1 h1 => ?_)
  have hhere : c1.scopes.here = c.scopes.here := h1.here_eq.trans hat.here_eq.symm
  have hsite : c1.scopes.AtSite (some ⟨c.scopes.current.depth, back⟩) := by
    have hloops := h1.wrote.loops
    rw [Pieces.breaks_written, addBreaks_nil] at hloops
    exact ⟨_, _, hloops, rfl, hback.trans hhere.symm⟩
  refine .bind (inside_statement ht hopens hm helse h1 hsite) fun _ c2 body h2 => ?_
  refine .emitLoop (back + Pieces.size body) h2 ?_ rfl fun c3 h3 => ?_
  · rw [Pieces.size_append, ← Nat.add_assoc, hback, hat.here_eq, Nat.add_assoc]
    rfl
  generalize back + Pieces.size body + 3 = again at h3 ⊢
  cases test with
  | none =>
    simp only [exitOperand, Option.map_none, Compile.exitHere, Generate.testCode, pure_bind]
    refine .endLoop rfl step [.loop again] (by simpa [testHead] using h3)
      fun is c4 h4 => hf _ c4 ?_
    simpa using h4
  | some test =>
    simp only [exitOperand, Option.map_some, Compile.exitHere, Generate.testCode, bind_assoc, pure_bind]
    refine .patchJump ⟨.inr rfl⟩ (written test)
      (.write .pop :: written step ++ body ++ [.write (.loop again)])
      (by simpa [testHead] using h3) (by simp; rfl) (by simp; omega) fun c4 h4 => .emit h4 trivial fun c5 h5 => ?_
    generalize Code.length step + Pieces.size body + 3 + 1 = toExit at h5 ⊢
    refine .endLoop rfl (test ++ [.jumpIfFalse toExit, .pop] ++ step)
      [.loop again, .pop] (by simpa using h5) fun is c6 h6 => hf _ c6 ?_
    simpa using h6

theorem while_ (he : Spine owner .assignment e ts) (hopens : Form.statement.Opens us)
    (ht : Follows owner .statement t us) : Follows owner .statement (.while_ e t)
      (.keyword .while_ :: .symbol .leftParen :: (ts ++ .symbol .rightParen :: us)) := by
  intro bound m l rest c hbound hm helse hat hsite
  simp only [length_append, length_cons] at hbound hm
  simp only [cons_append, append_assoc] at hat
  rw [Statement.code]
  simp only [Generate.loop, Generate.optional, Generate.stepCode, Generate.testSize, bind_assoc, pure_bind]
  refine .current hat (.advance hat fun c1 h1 => ?_)
  simp only [Compile.whileStatement_eq]
  refine .here h1 (.expect h1 fun c2 h2 => expression_mirrors he (by omega) (by omega)
    (.of_precedence rfl rfl) h2 fun test c3 h3 => .expect h3 fun c4 h4 => .emitJump ⟨.inr rfl⟩ h4
    fun c5 h5 => .emit h5 trivial fun c6 h6 => .last ?_)
  have hexit : some (c.scopes.here + Pieces.size ([] ++ written test) + 1)
      = exitOperand c.scopes.here (some test) := by simp [exitOperand]
  have hback : c.scopes.here + Pieces.size [] + (Code.length test + 4) = c6.scopes.here := by
    simp [h6.here_eq]
  have hhead : c6.At owner (us ++ rest) c.scopes (written (testHead (some test) ++ [])) := by
    simpa [testHead] using h6
  rw [hexit]
  exact loopBody_mirrors (k := pure) ht hopens (by omega) helse hhead hback fun is c7 h7 => .pure h7

theorem forCondition_mirrors {γ δ : Type} {bound m : Nat} {rest}
    {c : Compiler} {s : Scopes} {R : γ → Compiler → δ → Prop} {f k}
    (hcondition : Follows owner .clause condition ts) (hbound : ts.length ≤ bound)
    (hm : ts.length ≤ m + 1) (hat : c.At owner (ts ++ .symbol .semicolon :: rest) s [])
    (hf : ∀ test, MirrorsAt owner rest s (written (testHead test)) (f (exitOperand s.here test)) (k test) R) :
    Mirrors (Compile.forCondition bound (.upTo m) >>= f)
      (Generate.optional (condition.code? owner) >>= k) c R := by
  simp only [Compile.forCondition, bind_assoc]
  cases condition with
  | none =>
    obtain rfl : ts = [] := hcondition
    exact .accept hat fun c1 h1 => hf none c1 h1
  | some e =>
    obtain ⟨he, hopens⟩ := hcondition
    refine .reject hat (hopens.next_ne rfl rfl) ?_
    simp only [Bool.false_eq_true, if_false, Generate.optional, Clause.code?, bind_assoc, pure_bind]
    refine expression_mirrors he hbound hm (.of_precedence rfl rfl) hat fun test c1 h1 =>
      .expect h1 fun c2 h2 => .emitJump ⟨.inr rfl⟩ h2 fun c3 h3 => .emit h3 trivial fun c4 h4 => ?_
    have htest := hf (some test) c4 (by simpa [testHead] using h4)
    simpa [exitOperand] using htest

theorem forStep_mirrors {γ δ : Type} {bound m : Nat} {test rest} {c : Compiler} {s : Scopes}
    {R : γ → Compiler → δ → Prop}
    {f k} (hstep : Follows owner .clause step ts) (hbound : ts.length ≤ bound) (hm : ts.length ≤ m + 1)
    (hat : c.At owner (ts ++ .symbol .rightParen :: rest) s (written (testHead test)))
    (hf : ∀ step back continueAt c', c'.At owner rest s (written (testHead test ++ step)) →
      continueAt + back = c'.scopes.here → Mirrors (f continueAt) (k (step, back)) c' R) :
    Mirrors (Compile.forStep bound (.upTo m) s.here >>= f)
      (Generate.stepCode test (step.code? owner) >>= k) c R := by
  simp only [Compile.forStep, bind_assoc]
  cases step with
  | none =>
    obtain rfl : ts = [] := hstep
    refine .accept hat fun c1 h1 => hf [] (Generate.testSize test) s.here c1 (by simpa using h1) ?_
    rw [h1.here_eq, Pieces.size_written, length_testHead]
  | some e =>
    obtain ⟨he, hopens⟩ := hstep
    refine .reject hat (hopens.next_ne rfl rfl) ?_
    simp only [Bool.false_eq_true, if_false, Generate.stepCode, Clause.code?, bind_assoc, pure_bind]
    refine .emitJump ⟨.inl rfl⟩ hat fun c1 h1 => .here h1 (expression_mirrors he hbound hm
      (.of_precedence rfl rfl) h1 fun code c2 h2 => .emit h2 trivial fun c3 h3 => .expect h3 fun c4 h4 => ?_)
    refine .emitLoop (Generate.testSize test + Code.length code + 4) h4 ?_ rfl fun c5 h5 => ?_
    · simp [length_testHead]
      omega
    generalize Generate.testSize test + Code.length code + 4 + 3 = toTest at h5 ⊢
    refine .patchJump ⟨.inl rfl⟩ (written (testHead test))
      (written (code ++ [.pop, .loop toTest])) (by simpa using h5) (by simp) (by simp) fun c6 h6 => ?_
    have hback : s.here + Pieces.size (written (testHead test) ++ [.write (.jump maxWord)])
        + (Code.length code + 4) = c6.scopes.here := by
      rw [h6.here_eq]
      simp
      omega
    exact hf (.jump (Code.length code + 4) :: code ++ [.pop, .loop toTest]) _ _ c6 (by simpa using h6) hback

theorem for_ {first : Declarations}
    (hfirst : Follows owner .forInitializer first ts) (hcondition : Follows owner .clause condition us)
    (hstep : Follows owner .clause step vs) (hopens : Form.statement.Opens ws) (ht : Follows owner .statement t ws) :
    Follows owner .statement (.for_ first condition step t)
      (.keyword .for_ :: .symbol .leftParen ::
        (ts ++ (us ++ .symbol .semicolon :: (vs ++ .symbol .rightParen :: ws)))) := by
  intro bound m l rest c hbound hm helse hat hsite
  simp only [length_append, length_cons] at hbound hm
  simp only [cons_append, append_assoc] at hat
  rw [Statement.code]
  simp only [Generate.loop, bind_assoc, pure_bind]
  refine .current hat (.advance hat fun c1 h1 => ?_)
  simp only [Compile.forStatement_eq]
  refine .beginBlock h1 fun c2 h2 => .expect h2 fun c3 h3 =>
    .bind (hfirst (by omega) (by omega) h3.self) fun _ c4 qs h4 => ?_
  -- From here on the code is compared with the place where the loop starts.
  refine .here h4.self (forCondition_mirrors hcondition (by omega) (by omega) h4.self fun test c5 h5 =>
    forStep_mirrors hstep (by omega) (by omega) h5 fun step back continueAt c6 h6 hback => ?_)
  refine loopBody_mirrors (k := fun body => Generate.endBlock >>= fun leave => pure (qs ++ body ++ written leave))
    ht hopens (by omega) helse h6 hback fun is c7 h7 => .last ?_
  exact .endBlock ((h3.trans h4).trans h7) fun leave c8 h8 => .pure h8

theorem break_ : Follows owner .statement .break_ [.keyword .break_, .symbol .semicolon] := by
  intro bound m l rest c hbound hm _ hat hsite
  simp only [cons_append, nil_append] at hat
  rw [Statement.code]
  refine .current hat (.advance hat fun c1 h1 => .step rfl ?_)
  have hsite1 := h1.wrote.atSite_nil hsite
  rw [show Compile.scope c1 = (c1.scopes.current, c1) from rfl]
  cases l with
  | none =>
    have hloops : c1.scopes.current.loops = [] := hsite1
    rw [hloops]
    exact .of_error rfl (Compile.mistake_errors_ne h1.reported _)
  | some site =>
    obtain ⟨loop, outer, hloops, hdepth, _⟩ := hsite1
    rw [hloops]
    simp only [hdepth, Generate.exitLoop]
    refine .discardAbove h1 fun leave c2 h2 => .emitJump ⟨.inl rfl⟩ h2 fun c3 h3 =>
      .addBreak h3 rfl fun c4 h4 => .last (.expect h4 fun c5 h5 => .pure (by simpa using h5))

theorem continue_ : Follows owner .statement .continue_ [.keyword .continue_, .symbol .semicolon] := by
  intro bound m l rest c hbound hm _ hat hsite
  simp only [cons_append, nil_append] at hat
  rw [Statement.code]
  refine .current hat (.advance hat fun c1 h1 => .step rfl ?_)
  have hsite1 := h1.wrote.atSite_nil hsite
  rw [show Compile.scope c1 = (c1.scopes.current, c1) from rfl]
  cases l with
  | none =>
    have hloops : c1.scopes.current.loops = [] := hsite1
    rw [hloops]
    exact .of_error rfl (Compile.mistake_errors_ne h1.reported _)
  | some site =>
    obtain ⟨loop, outer, hloops, hdepth, hback⟩ := hsite1
    rw [hloops]
    simp only [hdepth, Generate.continueLoop]
    refine .discardAbove h1 fun leave c2 h2 =>
      .emitLoop (site.back + Code.length leave) h2 ?_ rfl fun c3 h3 => .last ?_
    · have hhere := h1.here_eq
      simp at hhere ⊢
      omega
    exact .expect h3 fun c4 h4 => .pure (by simpa using h4)

/-! ### Declarations -/

theorem noInitializer : Follows owner .initializer .none [] := by
  intro bound m rest c s ps _ _ hstop hat
  have hequal : rest.headD .endOfText ≠ .symbol .equal := fun heq => by
    have hassignment := hstop.noAssignment
    rw [next, heq] at hassignment
    cases hassignment
  refine .reject hat hequal ?_
  simp only [Bool.false_eq_true, if_false, Clause.code?, Option.getD_none]
  exact .last (.emit hat trivial fun c1 h1 => .pure h1)

theorem someInitializer (he : Spine owner .assignment e ts) :
    Follows owner .initializer (.some e) (.symbol .equal :: ts) := by
  intro bound m rest c s ps hbound hm hstop hat
  simp only [length_cons] at hbound hm
  refine .accept hat fun c1 h1 => ?_
  exact he.precedence (by omega) (by omega) (by decide) hstop h1

theorem declareVariable_mirrors {γ δ : Type} {bound m : Nat}
    {rest} {c : Compiler} {s : Scopes} {ps} {R : γ → Compiler → δ → Prop} {f k}
    (hvalue : Follows owner .initializer value ts) (hbound : ts.length ≤ bound) (hm : ts.length ≤ m + 1)
    (hstop : Stops .assignment rest) (hat : c.At owner (ts ++ rest) s ps)
    (hf : ∀ is, MirrorsAt owner rest s (ps ++ written is) (f ()) (k is) R) :
    Mirrors (Compile.declareVariable bound (.upTo m) x >>= f)
      (Generate.variable_ x ((value.code? owner).getD (return [.pushNil])) >>= k) c R := by
  simp only [Compile.declareVariable, Generate.variable_, bind_assoc]
  refine .look (.step rfl ?_)
  show Mirrors ((if (decide (c.scopes.current.depth = 0) && decide (c.scopes.current.kind = .script)) = true
    then _ else _) >>= _) ((if c.scopes.AtGlobalLevel then _ else _) >>= _) c R
  by_cases hglobal : c.scopes.AtGlobalLevel
  · rw [if_pos hglobal, if_pos (by simpa [Scopes.AtGlobalLevel] using hglobal)]
    simp only [Compile.nameConstant, bind_assoc, pure_bind]
    refine .text hat fun name c1 h1 => .bind (hvalue hbound hm hstop h1)
      fun _ c2 is h2 => .emit h2 trivial fun c3 h3 => hf _ c3 (by simpa using h3)
  · rw [if_neg hglobal, if_neg (by simpa [Scopes.AtGlobalLevel] using hglobal)]
    simp only [bind_assoc, pure_bind]
    exact .declare hat fun c1 h1 => .bind (hvalue hbound hm hstop h1) fun _ c2 is h2 =>
      .define h2 fun c3 h3 => hf _ c3 h3

theorem next_initializer_ne (us : List TokenKind) (hopens : Form.initializer.Opens ts) :
    next (ts ++ .symbol .comma :: us) ≠ .symbol .leftParen ∧ next ts ≠ .symbol .leftParen := by
  cases ts with
  | nil => exact ⟨nofun, nofun⟩
  | cons k ts =>
    obtain rfl : k = .symbol .equal := of_decide_eq_true hopens
    exact ⟨nofun, nofun⟩

theorem lastVariable (hopens : Form.initializer.Opens ts) (hvalue : Follows owner .initializer value ts) :
    Follows owner .variables (.cons x value .nil) (.name x :: ts) := by
  refine ⟨x, ts, rfl, (next_initializer_ne [] hopens).2, fun {bound m k rest c s ps} hbound hm hk hat => ?_⟩
  simp only [Declarators.code, pure_bind, append_nil]
  refine declareVariable_mirrors hvalue hbound hm (.of_precedence rfl rfl) hat fun is c1 h1 => ?_
  cases k with
  | zero => exact .last (.exhaust h1 fun _ h2 => .pure h2)
  | succ k =>
    rw [Compile.repeatUpTo]
    simp only [Compile.anotherVariable, bind_assoc]
    refine .reject h1 (by simp) ?_
    simp only [Bool.false_eq_true, if_false, pure_bind]
    exact .pure h1

theorem moreVariables {vs} (hopens : Form.initializer.Opens ts) (hvalue : Follows owner .initializer value ts)
    (hvs : Follows owner .variables vs us) :
    Follows owner .variables (.cons x value vs) (.name x :: (ts ++ .symbol .comma :: us)) := by
  obtain ⟨y, us, rfl, _, hvs⟩ := hvs
  refine ⟨x, _, rfl, (next_initializer_ne _ hopens).1, fun {bound m k rest c s ps} hbound hm hk hat => ?_⟩
  simp only [length_append, length_cons] at hbound hm hk
  simp only [append_assoc, cons_append] at hat
  obtain ⟨k, rfl⟩ : ∃ k', k = k' + 1 := ⟨k - 1, by omega⟩
  simp only [Declarators.code]
  refine declareVariable_mirrors hvalue (by omega) (by omega) (.of_precedence rfl rfl) hat
    fun is c1 h1 => ?_
  rw [Compile.repeatUpTo]
  simp only [Compile.anotherVariable, bind_assoc]
  refine .accept h1 fun c2 h2 => ?_
  simp only [if_true, bind_assoc, pure_bind]
  refine .expectName h2 fun c3 h3 => .map ?_
  refine (hvs (k := k) (by omega) (by omega) (by omega) h3).mono fun _ c4 is' h4 => ?_
  simpa using h4

theorem variableDeclaration_mirrors {bound m : Nat} {vs : Declarators} {rest}
    {c : Compiler} {s : Scopes} {ps} (hvs : DeclaresAll owner x vs us)
    (hbound : us.length ≤ bound) (hm : us.length ≤ m + 1) (hat : c.At owner (us ++ .symbol .semicolon :: rest) s ps) :
    Mirrors (Compile.variableDeclaration bound (.upTo m) x) (vs.code owner) c
      fun _ c' is => c'.At owner rest s (ps ++ written is) := by
  have hassoc : Compile.variableDeclaration bound (.upTo m) x = (do
      Compile.declareVariable bound (.upTo m) x
      Compile.repeatUpTo (Compile.anotherVariable bound (.upTo m)) bound) >>= fun _ =>
      Compile.expect (.symbol .semicolon) "';' after variable declaration" := by
    rw [Compile.variableDeclaration, bind_assoc]
  rw [hassoc]
  exact .done (.bind (hvs hbound hm hbound hat) fun _ c1 is h1 => .last (.expect h1 fun c2 h2 => .pure h2))

theorem noFirst : Follows owner .forInitializer .nil [.symbol .semicolon] := by
  intro bound m l rest c _ _ hat
  exact .accept hat fun c1 h1 => .pure h1

theorem firstVariables {type : TypeName} {vs} (hvs : Follows owner .variables vs ts) :
    Follows owner .forInitializer (.cons (.variables vs) .nil)
      (.type type :: (ts ++ [.symbol .semicolon])) := by
  obtain ⟨x, us, rfl, _, hvs⟩ := hvs
  intro bound m l rest c hbound hm hat
  simp only [length_append, length_cons, length_nil] at hbound hm
  simp only [append_assoc, cons_append, nil_append] at hat
  simp only [Declarations.code, Declaration.code, bind_assoc, pure_bind, append_nil]
  refine .reject hat nofun (.current hat (.advance hat fun c1 h1 => .expectName h1 fun c2 h2 => .map ?_))
  exact variableDeclaration_mirrors hvs (by omega) (by omega) h2

theorem firstExpression (hopens : Form.Opens (.expression .assignment) ts) (he : Spine owner .assignment e ts) :
    Follows owner .forInitializer (.cons (.statement (.expression e)) .nil)
      (ts ++ [.symbol .semicolon]) := by
  intro bound m l rest c hbound hm hat
  simp only [length_append, length_cons, length_nil] at hbound hm
  rw [append_assoc] at hat
  have hnoType : ((ts ++ ([TokenKind.symbol .semicolon] ++ rest)).headD .endOfText).isType = false :=
    hopens.isType_next rfl fun _ => rfl
  simp only [Declarations.code, Declaration.code, Statement.code, bind_assoc, pure_bind, append_nil]
  refine .reject hat (hopens.next_ne rfl rfl) (.current hat ?_)
  rw [hnoType]
  exact .last (expressionStatement_mirrors he (by omega) (by omega) hat fun is c1 h1 => .pure h1)

theorem declaration_mirrors {bound : Nat} {g : Grammar} {rest} {c : Compiler} {h}
    (hdeclaration : Mirrors (Compile.plainDeclaration bound g) h c fun _ c' qs => c'.At owner rest c.scopes qs) :
    Mirrors (Compile.declaration bound g) h c fun _ c' qs => c'.At owner rest c.scopes qs := by
  rw [Compile.declaration_eq]
  exact .done (.bind hdeclaration fun _ c' qs h' => .last (.resume h' (.pure h')))

theorem functionDeclaration {type : TypeName}
    (hopens : Form.function.Opens ts) (hfunction : Follows owner .function (xs, body) ts) :
    Follows owner .declaration (.function x xs body) (.type type :: .name x :: ts) := by
  intro bound m l rest c hbound hm _ hat _
  simp only [length_cons] at hbound hm
  simp only [cons_append] at hat
  refine declaration_mirrors (.current hat (.advance hat fun c1 h1 => ?_))
  obtain ⟨us, rfl⟩ : ∃ us, ts = .symbol .leftParen :: us := by
    cases ts with
    | nil => cases hopens
    | cons k us => exact ⟨us, by rw [of_decide_eq_true hopens]⟩
  simp only [Compile.typedDeclaration, Declaration.code]
  refine .expectName h1 fun c2 h2 => .check h2 ?_
  simp only [if_true, Compile.functionDeclaration, Generate.functionVariable, bind_assoc]
  refine .look (.step rfl ?_)
  show Mirrors (if (decide (c2.scopes.current.depth = 0) && decide (c2.scopes.current.kind = .script)) = true
    then _ else _) ((if c2.scopes.AtGlobalLevel then _ else _) >>= _) c2 _
  by_cases hglobal : c2.scopes.AtGlobalLevel
  · rw [if_pos hglobal, if_pos (by simpa [Scopes.AtGlobalLevel] using hglobal)]
    simp only [Compile.nameConstant, bind_assoc, pure_bind]
    refine .text h2 fun name c3 h3 => .bind (hfunction (by omega) (by omega) h3)
      fun _ c4 is h4 => .last (.emit h4 trivial fun c5 h5 => .pure (by simpa using h5))
  · rw [if_neg hglobal, if_neg (by simpa [Scopes.AtGlobalLevel] using hglobal)]
    simp only [bind_assoc]
    exact .declare h2 fun c3 h3 => .define h3 fun c4 h4 => .map (hfunction (by omega) (by omega) h4)

theorem variableDeclaration {type : TypeName} {vs} (hvs : Follows owner .variables vs ts) :
    Follows owner .declaration (.variables vs) (.type type :: (ts ++ [.symbol .semicolon])) := by
  obtain ⟨x, us, rfl, hnext, hvs⟩ := hvs
  intro bound m l rest c hbound hm _ hat _
  simp only [length_append, length_cons, length_nil] at hbound hm
  simp only [append_assoc, cons_append, nil_append] at hat
  refine declaration_mirrors (.current hat (.advance hat fun c1 h1 => ?_))
  simp only [Compile.typedDeclaration, Declaration.code]
  refine .expectName h1 fun c2 h2 => .checkNot h2 ?_ (.map ?_)
  · cases us with
    | nil => exact nofun
    | cons k us => exact hnext
  · exact variableDeclaration_mirrors hvs (by omega) (by omega) h2

theorem statement (hopens : Form.statement.Opens ts) (ht : Follows owner .statement t ts) :
    Follows owner .declaration (.statement t) ts := by
  intro bound m l rest c hbound hm helse hat hsite
  have hnoType : ((ts ++ rest).headD .endOfText).isType = false := hopens.isType_next rfl fun _ => rfl
  rw [Declaration.code]
  refine declaration_mirrors (.current hat ?_)
  rw [hnoType]
  refine .reject hat (hopens.next_ne rfl rfl) ?_
  exact ht hbound hm (fun _ => helse) hat hsite

theorem noDeclarations : Follows owner .declarations .nil [] := by
  intro k l rest c stop x _ _ hstop hat _
  cases k with
  | zero => exact .last (.exhaust hat fun _ hat' => .pure hat')
  | succ k =>
    obtain ⟨c', hend, hscopes, hat'⟩ := hstop.ends hat
    rw [Compile.repeatUpTo]
    simp only [bind_assoc]
    refine .step ?_ ?_
    · rw [hend, hscopes]
    · rw [hend]
      simp only [if_true, pure_bind, Bool.false_eq_true, if_false]
      exact .pure hat'

theorem declaration {d ds} (hopens : Form.declaration.Opens ts)
    (hd : Follows owner .declaration d ts) (hopens' : Form.declarations.Opens us)
    (hds : Follows owner .declarations ds us) : Follows owner .declarations (.cons d ds) (ts ++ us) := by
  intro k l rest c stop x hx hk hstop hat hsite
  obtain ⟨kind, ts', rfl⟩ : ∃ kind ts', ts = kind :: ts' := by
    cases ts with
    | nil => cases hopens
    | cons kind ts' => exact ⟨kind, ts', rfl⟩
  obtain ⟨bound, m, rfl, hbound, hm⟩ := hx nofun
  simp only [length_append, length_cons] at hbound hm hk
  simp only [cons_append, append_assoc] at hat
  obtain ⟨k, rfl⟩ : ∃ k', k = k' + 1 := ⟨k - 1, by omega⟩
  have hcontinue : stop c = (false, c) := hstop.continues hat hopens
  have helse : next (us ++ rest) ≠ .keyword .else_ := by
    cases us with
    | nil => exact hstop.noElse
    | cons kind us =>
      rintro rfl
      cases hopens'
  rw [Compile.repeatUpTo, Declarations.code]
  simp only [bind_assoc]
  refine .step (by rw [hcontinue]) ?_
  rw [hcontinue]
  simp only [Bool.false_eq_true, if_false, bind_assoc, pure_bind]
  refine .bind (hd (by simpa using by omega) (by simpa using by omega) helse hat hsite) fun _ c1 qs h1 => .map ?_
  refine (hds (fun _ => ⟨bound, m, rfl, by omega, by omega⟩) (by omega) hstop h1.self
    (h1.wrote.atSite hsite)).mono fun _ c2 rs h2 => h1.trans h2

end Follows

theorem Derives.follows {f : Form} {t : f.Tree} {ts} (owner : Option String)
    (h : Derives true f t ts) : Follows owner f t ts := by
  induction h with
  | literal l => exact Spine.literal l
  | group _ ih => exact Spine.group ih
  | @name x _ => exact Spine.name x
  | callName _ _ ih => exact Spine.callName ih
  | this => exact Spine.this
  | superCall _ _ ih => exact Spine.superCall ih
  | lambda _ ih => exact Spine.lambda ih
  | call _ _ ih ih' => exact Spine.call ih ih'
  | property _ _ ih => exact Spine.property ih
  | invoke _ _ _ ih ih' => exact Spine.invoke ih ih'
  | tighter _ ih => exact Spine.tighter ih
  | unary _ ih => exact Spine.unary ih
  | binary _ _ ih ih' => exact Spine.binary ih ih'
  | and _ _ ih ih' => exact Spine.and ih ih'
  | or _ _ ih ih' => exact Spine.or ih ih'
  | assign _ _ ih => exact Spine.assign ih
  | assignProperty _ _ _ ih ih' => exact Spine.assignProperty ih ih'
  | noArguments => exact Follows.noArguments
  | someArguments h ih => exact Follows.someArguments h.opens ih
  | lastArgument _ ih => exact Follows.lastArgument ih
  | argument _ _ ih ih' => exact Follows.argument ih ih'
  | noParameters => exact Follows.noParameters
  | someParameters h ih => exact Follows.someParameters h.opens ih
  | lastParameter => exact Follows.lastParameter
  | parameter _ _ ih => exact Follows.parameter ih
  | function _ _ ih ih' => exact Follows.function ih ih'
  | noClause => rfl
  | someClause h ih => exact ⟨ih, h.opens⟩
  | expression h ih => exact Follows.expression h.opens ih
  | block _ ih => exact Follows.block ih
  | ifThen _ h' ih ih' => exact Follows.ifThen ih h'.opens ih'
  | ifElse _ h2 hclosed h3 ih1 ih2 ih3 =>
    exact Follows.ifElse ih1 h2.opens ih2 (hclosed rfl) h3.opens ih3
  | while_ _ h' ih ih' => exact Follows.while_ ih h'.opens ih'
  | noFirst => exact Follows.noFirst
  | firstVariables _ ih => exact Follows.firstVariables ih
  | firstExpression h ih => exact Follows.firstExpression h.opens ih
  | for_ _ _ _ h4 ih1 ih2 ih3 ih4 => exact Follows.for_ ih1 ih2 ih3 h4.opens ih4
  | return_ _ ih => exact Follows.return_ ih
  | break_ => exact Follows.break_
  | continue_ => exact Follows.continue_
  | noInitializer => exact Follows.noInitializer
  | someInitializer _ ih => exact Follows.someInitializer ih
  | lastVariable _ h ih => exact Follows.lastVariable h.opens ih
  | moreVariables _ h _ ih ih' => exact Follows.moreVariables h.opens ih ih'
  | functionDeclaration _ h ih => exact Follows.functionDeclaration h.opens ih
  | variableDeclaration _ ih => exact Follows.variableDeclaration ih
  | statement h ih => exact Follows.statement h.opens ih
  | noDeclarations => exact Follows.noDeclarations
  | declaration h h' ih ih' => exact Follows.declaration h.opens ih h'.opens ih'

end Mudscript
