import Mudscript.Proofs.Lexemes
import Mudscript.Proofs.Reading

/-!
# Every construct is read in order

The parts of the grammar are taken one by one, in the order of their definitions: given that the grammar of
the constructs inside reads in order, so does the construct around them. While an expression is compiled, the variables
of all functions that are being written stay as they are, and a statement or declaration adds to the variables of the
innermost block at most.
-/

namespace Mudscript

variable {k : Nat} {w : Site} {kind : TokenKind}

variable {minimum : Precedence} {token : TokenKind}

theorem Precedence.tighter_ne_none (p : Precedence) : p.tighter ≠ .none := by
  cases p <;> exact nofun

namespace Compile

set_option synthInstance.maxSize 100000

variable {α : Type} {n bound : Nat} {g : Grammar} {b : Bool} {c : Compiler} {x y : Compile α}

def Declares (n : Nat) (x : Compile α) : Prop :=
  ∀ {w : Site}, w.Fit → Orders ⟨false, w.Inside⟩ ⟨false, w.Inside⟩ n x

/-- A grammar that reads in order as long as fewer than `n` tokens are ahead, which is below the bound of the
repetitions. No part of it asks for an expression of no precedence, which any token could continue. Whatever it
is asked for, it takes a token. -/
class Ordered (bound : outParam Nat) (n : Nat) (g : Grammar) : Prop where
  lt : n < bound
  expression : ∀ {p}, p ≠ .none → Steady n (g (.expression p))
  statement : Growing n (g .statement)
  declaration : Declares n (g .declaration)
  takes : ∀ nt (c : Compiler), c.ahead < n → c.current.kind ≠ .endOfText → (g nt c).2.ahead < c.ahead

/-! ### Tokens that are taken -/

theorem advance_takes (x : Compile α) (h : c.current.kind ≠ .endOfText) :
    ((do advance; x : Compile α) c).2.ahead < c.ahead :=
  Nat.lt_of_le_of_lt (x.leads _).ahead_le (Compiler.moveTo_ahead_lt h)

theorem accept_takes (hkind : kind ≠ .endOfText) : Takes n (accept kind) := by
  intro c _ hanswer
  rw [accept_apply] at hanswer ⊢
  split at hanswer
  · rename_i h
    rw [if_pos h]
    exact Compiler.moveTo_ahead_lt (h ▸ hkind)
  · cases hanswer

namespace Takes

variable {x : Compile Bool} {y : Compile Unit} {stop : Compile Bool}

theorem bind {x : Compile α} {f} (hf : ∀ a, Takes n (f a)) : Takes n (x >>= f) :=
  fun c hc hanswer => Nat.lt_of_lt_of_le
    (hf _ (x c).2 (Nat.lt_of_le_of_lt (x.leads c).ahead_le hc) hanswer) (x.leads c).ahead_le

theorem ite {P : Prop} [Decidable P] {y} (hx : Takes n x) (hy : Takes n y) : Takes n (if P then x else y) := by
  split <;> assumption

theorem accepting (hkind : kind ≠ .endOfText) : Takes n (do if ← accept kind then x else return false) := by
  intro c hc hanswer
  rw [bind_apply] at hanswer ⊢
  split at hanswer
  · rename_i haccept
    rw [if_pos haccept]
    exact Nat.lt_of_le_of_lt (x.leads _).ahead_le (accept_takes hkind c hc haccept)
  · cases hanswer

theorem proceeding
    (hstop : ∀ c : Compiler, stop c = (true, (stop c).2) ∨ c.current.kind ≠ .endOfText ∧ stop c = (false, c))
    (hy : ∀ c : Compiler, c.ahead < n → c.current.kind ≠ .endOfText → (y c).2.ahead < c.ahead) :
    Takes n (stop >>= fun b => if b = true then pure false else y >>= fun _ => pure true) := by
  intro c hc hanswer
  rw [bind_apply] at hanswer ⊢
  rcases hstop c with h | ⟨hkind, h⟩
  · rw [h] at hanswer
    cases hanswer
  · rw [h]
    exact hy c hc hkind

end Takes

/-- One declaration of a block, which ends at its brace and at the end of the text. -/
theorem blockDeclaration_takes
    (hg : ∀ c : Compiler, c.ahead < n → c.current.kind ≠ .endOfText → (g .declaration c).2.ahead < c.ahead) :
    Takes n (do
      if ← atBlockEnd then return false
      g .declaration
      return true) := by
  have hstop : ∀ c : Compiler, atBlockEnd c = (true, (atBlockEnd c).2) ∨
      c.current.kind ≠ .endOfText ∧ atBlockEnd c = (false, c) := by
    intro c
    have hatEnd : atBlockEnd c = (decide (c.current.kind = .symbol .rightBrace)
      || decide (c.current.kind = .endOfText), c) := rfl
    rw [hatEnd]
    by_cases hend : c.current.kind = .endOfText <;> by_cases hbrace : c.current.kind = .symbol .rightBrace <;>
      simp [hend, hbrace]
  exact .proceeding hstop hg

theorem parameter_takes : Takes n parameter := by
  have hcomma : Takes n (do
      declare (← expectName "parameter name")
      define
      accept (.symbol .comma)) :=
    .bind fun _ => .bind fun _ => .bind fun _ => accept_takes nofun
  exact .bind fun _ => .ite (.bind fun _ => .bind fun _ => .ite (.bind fun _ => hcomma) hcomma)
    (.bind fun _ => .bind fun _ => .ite (.bind fun _ => hcomma) hcomma)

theorem precedence_ne_none_cases (h : token.precedence ≠ .none) :
    token = .symbol .and ∨ token = .symbol .or ∨ token = .symbol .leftParen ∨ token = .symbol .arrow ∨
      ∃ i, binaryOperation? token = some i := by
  cases token with
  | symbol x => cases x <;> simp_all [TokenKind.precedence, binaryOperation?]
  | _ => exact absurd rfl h

theorem precedence_ne_none (hminimum : minimum ≠ .none) (hle : minimum ≤ token.precedence) :
    token.precedence ≠ .none := by
  intro hnone
  rw [hnone] at hle
  cases minimum with
  | none => exact hminimum rfl
  | _ => exact absurd hle (by decide)

theorem operation_takes (hminimum : minimum ≠ .none) (canAssign : Bool) :
    Takes n (operation bound g minimum canAssign) := by
  intro c _
  show ((if minimum ≤ c.current.kind.precedence then _ else _ : Compile Bool) c).1 = true →
    ((if minimum ≤ c.current.kind.precedence then _ else _ : Compile Bool) c).2.ahead < _
  split
  · rename_i hle
    refine fun _ => advance_takes _ fun hend => precedence_ne_none hminimum hle ?_
    rw [hend]
    rfl
  · exact nofun

theorem precedence_takes (h : c.current.kind ≠ .endOfText) :
    (precedence bound g minimum c).2.ahead < c.ahead := advance_takes _ h

theorem statement_takes (h : c.current.kind ≠ .endOfText) : (statement bound g c).2.ahead < c.ahead := by
  have hexpression : (expressionStatement bound g c).2.ahead < c.ahead :=
    Nat.lt_of_le_of_lt (Compile.leads (do expect _ _; emit _) _).ahead_le (precedence_takes h)
  unfold statement
  rw [bind_apply]
  split
  case h_8 => exact hexpression
  all_goals exact advance_takes _ h

theorem declaration_takes (h : c.current.kind ≠ .endOfText) : (declaration bound g c).2.ahead < c.ahead := by
  rw [declaration, bind_apply]
  dsimp only
  split
  · exact advance_takes _ h
  · rw [bind_apply, accept_apply]
    split
    · exact Nat.lt_of_le_of_lt (Compile.leads _ _).ahead_le (Compiler.moveTo_ahead_lt h)
    · exact Nat.lt_of_le_of_lt ((resume bound).leads _).ahead_le (statement_takes h)

theorem scriptDeclaration_takes : Takes n (scriptDeclaration bound g) := by
  refine .proceeding (fun c => ?_) fun c _ => declaration_takes
  rw [accept_apply]
  split
  · exact .inl rfl
  · exact .inr ⟨‹_›, rfl⟩

theorem memberDeclaration_takes : Takes n (memberDeclaration bound g) := by
  refine .proceeding (fun c => ?_) fun c _ hkind => ?_
  · show (decide (c.current.kind = .endOfText), c) = (true, c) ∨ _ ∧
      (decide (c.current.kind = .endOfText), c) = (false, c)
    by_cases h : c.current.kind = .endOfText <;> simp [h]
  · rw [member, bind_apply]
    dsimp only
    split
    · exact advance_takes _ hkind
    · refine Nat.lt_of_lt_of_le (advance_takes _ fun hend => hkind ?_) ((mistakeAhead _).leads c).ahead_le
      rwa [Compiler.report_current] at hend

/-! ### Functions -/

variable [hg : Ordered bound n g]

theorem block_orders (h : w.Fit) : Orders ⟨b, w.Inside⟩ ⟨true, w.Inside⟩ n (block bound g) := by
  have hbody : Orders ⟨false, w.Inside⟩ ⟨false, w.Inside⟩ n (do
      if ← atBlockEnd then return false
      g .declaration
      return true) :=
    .looking fun _ => .ite Looks.orders ((hg.declaration h).bind fun _ => Looks.orders)
  exact ((repeatUpTo_orders hbody (blockDeclaration_takes (hg.takes _)) (Nat.le_of_lt hg.lt)).bind fun _ =>
    expect_orders _ _).anywhere

instance : Growing n (block bound g) := ⟨block_orders⟩

instance : Steady n (modifyScope fun s => { s with arity := s.arity + 1 }) := .modifyScope fun _ => rfl

theorem parameter_orders (hbs : w.blocks ≠ []) : Orders ⟨true, w.Inside⟩ ⟨true, w.Inside⟩ n parameter := by
  have hname : Orders ⟨true, w.Inside⟩ ⟨true, w.Inside⟩ n (do
      declare (← expectName "parameter name")
      define
      accept (.symbol .comma)) :=
    (Steady.orders _).bind fun _ => declare_orders.bind fun _ => (define_orders hbs).bind fun _ => Steady.orders _
  have htype : Orders ⟨true, w.Inside⟩ ⟨true, w.Inside⟩ n (do
      if (← current).isType then advance
      declare (← expectName "parameter name")
      define
      accept (.symbol .comma)) :=
    .looking fun _ => .ite (advance_orders.bind fun _ => hname) hname
  exact .looking fun _ => .ite ((mistakeAhead_orders _).bind fun _ => htype) ((Steady.orders _).bind fun _ => htype)

/-- What is declared inside of a function is forgotten when it is left. -/
instance (kind : RoutineKind) (name : String) : Steady n (function bound g kind name) := by
  have hblocks : (Nest.start kind).blocks ≠ [] := nofun
  have hbody : ∀ m rest, Orders ⟨true, Site.Inside ⟨kind, (Nest.start kind).blocks, m :: rest⟩⟩
      ⟨true, (· = m :: rest)⟩ n (do
      expect (.symbol .rightParen) "')' after parameters"
      expect (.symbol .leftBrace) "'\x7b' before function body"
      block bound g
      leaveFunction) := fun m rest =>
    (expect_orders _ _).bind fun _ => (expect_orders _ _).bind fun _ =>
      (block_orders fun h => absurd h hblocks).bind fun _ => leaveFunction_orders rfl
  have hfunction : ∀ m rest, Orders ⟨true, (· = m :: rest)⟩ ⟨true, (· = m :: rest)⟩ n (function bound g kind name) := by
    intro m rest
    have henter : Orders ⟨true, (· = m :: rest)⟩ ⟨true, (· = .start kind :: m :: rest)⟩ n (enterFunction kind name) :=
      fun c _ => .step (fun h => h.enter kind name c.owner) fun _ _ h => ⟨⟨name, c.owner, rfl⟩, _, h ▸ .enter, rfl⟩
    have hparameters := repeatUpTo_orders (parameter_orders (w := ⟨kind, _, m :: rest⟩) hblocks) parameter_takes
      (Nat.le_of_lt hg.lt)
    exact henter.bind fun _ => beginBlock_orders.bind fun _ => (expect_orders _ _).bind fun _ => .looking fun _ =>
      .ite (hbody m rest) (hparameters.bind fun _ => hbody m rest)
  refine ⟨fun P c hc hp => ⟨(hfunction (.start kind) [] c hc hp).1, fun ns hnoticed hns hP => ?_⟩⟩
  obtain ⟨m, rest, _, _, rfl⟩ := List.forall₂_cons_left_iff.mp hns
  obtain ⟨_, htracks, rfl⟩ := (hfunction m rest c hc hp).2 _ hnoticed hns rfl
  exact ⟨_, htracks, hP⟩

/-! ### Expressions -/

instance : Steady n (operand g) := hg.expression nofun

instance : Steady n (grouping g) := by unfold grouping; infer_instance

instance (operation : Instruction) : Steady n (unary g operation) := by
  have hoperand := hg.expression (p := .unary) nofun
  unfold unary
  infer_instance

instance (operator : TokenKind) : Steady n (binary g operator) := by
  have hoperand := hg.expression (Precedence.tighter_ne_none operator.precedence)
  exact .bind fun _ => by split <;> infer_instance

instance : Steady n (conjunction g) := by
  have hoperand := hg.expression (p := .and) nofun
  unfold conjunction
  infer_instance

instance : Steady n (disjunction g) := by
  have hoperand := hg.expression (p := .or) nofun
  unfold disjunction
  infer_instance

instance (count : Nat) : Steady n (argument g count) := by unfold argument; infer_instance

include hg in
theorem argumentsFrom_orders {m : Nat} (hk : m ≤ k) (hm : m ≤ n) (count : Nat) {P : List Nest → Prop} :
    Orders ⟨true, P⟩ ⟨true, P⟩ m (argumentsFrom g k count) := by
  induction k generalizing m count with
  | zero => exact fun c hc => absurd (Nat.lt_of_lt_of_le hc hk) (Nat.not_lt_zero _)
  | succ k ih =>
    refine ((Steady.orders (n := n) P).weaken hm).bind fun count' c hc => ?_
    refine (Steady.orders (x := accept _) P c hc).bind ?_
    rw [accept_apply]
    split
    · rename_i hkind
      have hlt := Compiler.moveTo_ahead_lt (c := c) (by rw [hkind]; exact nofun)
      exact ih (m := m - 1) (by omega) (by omega) count' (c.moveTo c.unread) (by omega)
    · exact Looks.orders (x := pure count') c hc

instance : Steady n (arguments bound g) := by
  have harguments : Steady n (argumentsFrom g bound 0) :=
    ⟨fun _ => argumentsFrom_orders (Nat.le_of_lt hg.lt) (Nat.le_refl n) 0⟩
  unfold arguments
  infer_instance

instance : Steady n (call bound g) := by unfold call; infer_instance

instance (access : Access) : Steady n (emitGet access) := by unfold emitGet; split <;> infer_instance

instance (access : Access) : Steady n (emitSet access) := by unfold emitSet; split <;> infer_instance

instance (canAssign : Bool) : Steady n (assignment? canAssign) := by unfold assignment?; infer_instance

instance (name : Nat) (operator : TokenKind) : Steady n (assignProperty g name operator) := by
  unfold assignProperty
  split <;> infer_instance

instance (access : Access) (operator : TokenKind) : Steady n (assignVariable g access operator) := by
  unfold assignVariable
  split <;> infer_instance

instance (name : Nat) (assignment : Option TokenKind) : Steady n (receiverProperty bound g name assignment) :=
  .bind fun _ => by split <;> infer_instance

instance (name : String) (canAssign : Bool) : Steady n (variable_ bound g name canAssign) :=
  .bind fun _ => by
    split
    · infer_instance
    · exact .bind fun _ => by split <;> infer_instance

instance (canAssign : Bool) : Steady n (arrow bound g canAssign) :=
  .bind fun _ => .bind fun _ => .bind fun _ => by split <;> infer_instance

instance : Steady n this := by unfold this; infer_instance

instance : Steady n (superCall bound g) := by unfold superCall; infer_instance

/-! ### Precedence -/

instance (token : TokenKind) (canAssign : Bool) : Steady n (startWith bound g token canAssign) := by
  unfold startWith
  split <;> infer_instance

instance (operator : TokenKind) (canAssign : Bool) : Steady n (continueWith bound g operator canAssign) := by
  unfold continueWith
  split <;> infer_instance

instance (minimum : Precedence) (canAssign : Bool) : Steady n (operation bound g minimum canAssign) := by
  unfold operation
  infer_instance

/-- An expression takes a token before it turns to the grammar of what is inside. -/
theorem precedence_orders {p} (hp : p ≠ .none) {P : List Nest → Prop} :
    Orders ⟨b, P⟩ ⟨true, P⟩ (n + 1) (precedence bound g p) := by
  have hend : Orders ⟨true, P⟩ ⟨true, P⟩ (n + 1) (do
      if ← startWith bound g .endOfText (p ≤ .assignment) then
        repeatUpTo (operation bound g p (p ≤ .assignment)) bound
        if (← assignment? (p ≤ .assignment)).isSome then mistake .invalidAssignmentTarget
      else mistake (.expected "expression")) := by
    rw [show startWith bound g .endOfText _ = pure false from rfl, pure_bind]
    exact mistake_orders _
  refine .taking (fun token => ?_) hend
  refine (Steady.orders P).bind fun _ => .ite ?_ (mistake_orders _)
  exact (repeatUpTo_orders (Steady.orders P) (operation_takes hp _) (Nat.le_of_lt hg.lt)).bind fun _ => Steady.orders P

instance : Steady n (expression bound g) :=
  ⟨fun _ => (precedence_orders (p := .assignment) nofun).weaken (Nat.le_succ n)⟩

/-! ### Declarations -/

instance : Steady n (initializer bound g) := by unfold initializer; infer_instance

/-- Only a script declares variables outside of blocks, and these are global. -/
theorem Growing.atGlobalLevel [Steady n x]
    (hy : ∀ {w : Site}, w.blocks ≠ [] → Orders ⟨true, w.Inside⟩ ⟨true, w.Inside⟩ n y) :
    Growing n (do if ← atGlobalLevel then x else y) := by
  have hlooks : Looks Compile.atGlobalLevel := by unfold Compile.atGlobalLevel; infer_instance
  refine ⟨fun {w} h c hc => .looking ?_⟩
  split
  · exact Steady.orders _ c hc
  · rename_i hlocal
    intro hp
    refine ⟨(hy (w := { w with blocks := [[]] }) nofun c hc hp).1, fun ns' hnoticed hns ⟨b, hb⟩ => ?_⟩
    refine (hy (fun hbs => hlocal ?_) c hc hp).2 ns' hnoticed hns ⟨b, hb⟩
    subst hb
    cases hns with
    | cons hs _ =>
      have hdepth := hs.nests.depth
      have hkind := hs.kind_eq.trans (h hbs)
      show (decide (c.scopes.current.depth = 0) && decide (c.scopes.current.kind = .script)) = true
      simp only [hbs, List.length_cons, List.length_nil] at hdepth
      simp [hkind]
      omega

instance (name : String) : Growing n (declareVariable bound g name) :=
  .atGlobalLevel fun hbs => declare_orders.bind fun _ => (Steady.orders _).bind fun _ => define_orders hbs

instance (name : String) : Growing n (variableDeclaration bound g name) := by
  have hanother : Growing n (anotherVariable bound g) := by unfold anotherVariable; infer_instance
  have hothers : Growing n (repeatUpTo (anotherVariable bound g) bound) :=
    ⟨fun h => repeatUpTo_orders (hanother.orders h) (.accepting nofun) (Nat.le_of_lt hg.lt)⟩
  unfold variableDeclaration
  infer_instance

instance (name : String) : Growing n (functionDeclaration bound g name) :=
  .atGlobalLevel fun hbs => declare_orders.bind fun _ => (define_orders hbs).bind fun _ => Steady.orders _

instance : Growing n (typedDeclaration bound g) := by unfold typedDeclaration; infer_instance

/-! ### Loops -/

instance (continueAt : Nat) : Steady n (beginLoop continueAt) := .modifyScope fun _ => rfl

instance (operands : List Nat) : Steady n (operands.forM patchJump) := by
  induction operands with
  | nil => exact inferInstanceAs (Steady n (pure ()))
  | cons operand rest ih => exact inferInstanceAs (Steady n (patchJump operand >>= fun _ => rest.forM patchJump))

instance : Steady n endLoop := .bind fun scope => by
  split
  · infer_instance
  · rename_i l outer _
    have hforM : l.breaks.forM patchJump = l.breaks.toList.forM patchJump := List.forM_toArray' _ _ rfl
    have hloops : Steady n (modifyScope fun s => { s with loops := outer }) := .modifyScope fun _ => rfl
    rw [hforM]
    infer_instance

instance (operand : Nat) : Steady n (addBreak operand) := .modifyScope fun _ => by split <;> rfl

instance (depth : Int) : Growing n (discardAbove depth) :=
  ⟨fun _ _ _ => .step (fun h => ⟨h.current.emitAll _, h.enclosing⟩) fun _ _ ⟨b, h⟩ =>
    ⟨⟨_, rfl⟩, _, h ▸ .discard, b, rfl⟩⟩

instance : Growing n breakStatement := .bind fun _ => by split <;> infer_instance

instance : Growing n continueStatement := .bind fun _ => by split <;> infer_instance

instance : Growing n (g .statement) := hg.statement

instance : Growing n (whileStatement bound g) := by unfold whileStatement; infer_instance

/-! ### Statements -/

theorem expressionStatement_orders {P : List Nest → Prop} :
    Orders ⟨b, P⟩ ⟨true, P⟩ (n + 1) (expressionStatement bound g) :=
  (precedence_orders (p := .assignment) nofun).bind fun _ => Steady.orders P

instance : Growing n (forInitializer bound g) := by unfold forInitializer expressionStatement; infer_instance

instance : Steady n (forCondition bound g) := by unfold forCondition; infer_instance

instance (condition : Nat) : Steady n (forStep bound g condition) := by unfold forStep; infer_instance

instance : Growing n (forStatement bound g) := by
  have hends : Ends n (do
      expect (.symbol .leftParen) "'(' after 'for'"
      forInitializer bound g
      let condition ← here
      let toExit ← forCondition bound g
      let back ← forStep bound g condition
      beginLoop back
      g .statement
      emitLoop back
      match toExit with
      | some toExit =>
        patchJump toExit
        emit .pop
      | none => pure ()
      endLoop
      endBlock) := by
    repeat refine .bind fun _ => ?_
    split <;> infer_instance
  exact .begun

instance : Growing n (ifStatement bound g) := by unfold ifStatement; dsimp only; infer_instance

instance : Growing n (returnStatement bound g) := by unfold returnStatement; infer_instance

instance : Growing n (do beginBlock; block bound g; endBlock) := .begun

theorem statement_orders (h : w.Fit) : Orders ⟨b, w.Inside⟩ ⟨true, w.Inside⟩ (n + 1) (statement bound g) := by
  refine fun c hc => .looking ?_
  split
  case h_8 => exact expressionStatement_orders c hc
  all_goals
    rename_i hkind
    exact (Growing.orders h).advancing hc fun hend =>
      nomatch (show (current c).1 = .endOfText from hend).symm.trans hkind

theorem declaration_declares : Declares (n + 1) (declaration bound g) := by
  intro w h c hc
  have hresume : ∀ {P b}, Orders ⟨b, P⟩ ⟨false, P⟩ (n + 1) (resume bound) := resume_orders hg.lt
  refine .looking ?_
  dsimp only
  split
  · rename_i htype
    refine ((Growing.orders h).bind fun _ => hresume.weaken (Nat.le_succ n)).advancing hc fun hend => ?_
    rw [show (current c).1 = .endOfText from hend] at htype
    cases htype
  · exact Orders.accepting ((mistake_orders _).bind fun _ => hresume) ((statement_orders h).bind fun _ => hresume) c hc

theorem upTo_ordered (hlt : n < bound) (hle : n ≤ k) : Ordered bound n (Grammar.upTo k) := by
  induction k generalizing n bound with
  | zero =>
    obtain rfl : n = 0 := Nat.le_zero.mp hle
    exact ⟨hlt, fun _ => ⟨fun _ _ hc => absurd hc (Nat.not_lt_zero _)⟩, ⟨fun _ _ hc => absurd hc (Nat.not_lt_zero _)⟩,
      fun _ _ hc => absurd hc (Nat.not_lt_zero _), fun _ _ hc => absurd hc (Nat.not_lt_zero _)⟩
  | succ k ih =>
    have hg : Ordered (k + 1) k (Grammar.upTo k) := ih (Nat.lt_succ_self k) (Nat.le_refl k)
    refine ⟨hlt, fun hminimum => ⟨fun _ => (precedence_orders hminimum).weaken hle⟩,
      ⟨fun h => (statement_orders h).weaken hle⟩, fun h => (declaration_declares h).weaken hle, fun nt c _ hkind => ?_⟩
    cases nt with
    | expression minimum => exact precedence_takes hkind
    | statement => exact statement_takes hkind
    | declaration => exact declaration_takes hkind

/-! ### Scripts and object units -/

theorem script_declares : Declares (n + 1) (script bound g) := by
  intro w h
  have hdeclaration : Orders ⟨false, w.Inside⟩ ⟨false, w.Inside⟩ (n + 1) (scriptDeclaration bound g) :=
    .accepting Looks.orders.relax ((declaration_declares h).bind fun _ => Looks.orders)
  exact (repeatUpTo_orders hdeclaration scriptDeclaration_takes hg.lt).bind fun _ =>
    (emit_orders _).bind fun _ => emit_orders _

theorem inheritDeclaration_orders {P : List Nest → Prop} (hbound : n ≤ bound) :
    Orders ⟨false, P⟩ ⟨false, P⟩ n (inheritDeclaration bound) := by
  have hend : Orders ⟨true, P⟩ ⟨false, P⟩ n (do
      expect (.symbol .semicolon) "';' after inherit path"
      resume bound) :=
    (expect_orders _ _).bind fun _ => resume_orders hbound
  have hinheritance : Orders ⟨true, P⟩ ⟨false, P⟩ n (inheritance bound) := by
    refine .looking fun kind => ?_
    dsimp only
    split
    · exact advance_orders.bind fun _ => (Steady.orders P).bind fun _ =>
        (emit_orders _).bind fun _ => (emit_orders _).bind fun _ => hend
    · exact (mistakeAhead_orders _).bind fun _ => hend
  exact .accepting (hinheritance.bind fun _ => Looks.orders) Looks.orders

instance (name : String) : Steady n (field bound g name) := by unfold field; infer_instance

instance (name : String) : Steady n (fields bound g name) := by
  have hanother : Steady n (anotherField bound g) := by unfold anotherField; infer_instance
  have hothers : Steady n (repeatUpTo (anotherField bound g) bound) :=
    ⟨fun P => repeatUpTo_orders (hanother.orders P) (.accepting nofun) (Nat.le_of_lt hg.lt)⟩
  unfold fields
  infer_instance

instance (name : String) : Steady n (method bound g name) := by unfold method; infer_instance

theorem member_orders {P : List Nest → Prop} : Orders ⟨false, P⟩ ⟨false, P⟩ (n + 1) (member bound g) := by
  have hresume : Orders ⟨true, P⟩ ⟨false, P⟩ n (resume bound) := resume_orders (Nat.le_of_lt hg.lt)
  refine fun c hc => .looking ?_
  dsimp only
  split
  · rename_i htype
    refine Orders.advancing ((Steady.orders P).bind fun name => .looking fun _ =>
      .ite ((Steady.orders P).bind fun _ => hresume) ((Steady.orders P).bind fun _ => hresume)) hc fun hend => ?_
    rw [show (current c).1 = .endOfText from hend] at htype
    cases htype
  · exact (mistakeAhead_orders _).bind (fun _ => advance_orders.bind fun _ => resume_orders hg.lt) c hc

theorem objectUnit_orders {P : List Nest → Prop} (path : String) :
    Orders ⟨true, P⟩ ⟨false, P⟩ (n + 1) (objectUnit bound g path) := by
  have hmember : Orders ⟨false, P⟩ ⟨false, P⟩ (n + 1) (memberDeclaration bound g) :=
    .looking fun _ => .ite Looks.orders (member_orders.bind fun _ => Looks.orders)
  exact (Steady.orders P).bind fun _ => (emit_orders _).bind fun _ =>
    (repeatUpTo_orders (inheritDeclaration_orders hg.lt) (.accepting nofun) hg.lt).anywhere.bind fun _ =>
      (repeatUpTo_orders hmember memberDeclaration_takes hg.lt).bind fun _ => emit_orders _

end Compile

/-! ### Source texts -/

theorem Spells.proper {text : List Char} (h : Spells text kind) : kind.Proper := by
  cases h with
  | word _ _ hmeans =>
    generalize hword : String.ofList _ = word at hmeans
    cases hmeans with
    | name hk _ =>
      refine ⟨?_, (hk .this).symm⟩
      rintro rfl
      simpa using congrArg String.toList hword
    | _ => trivial
  | _ => trivial

theorem Tokens.ofSource_proper (source : String) (t : Token) (ht : .ok t ∈ (Tokens.ofSource source).items) :
    t.kind.Proper := by
  obtain ⟨text, hspells⟩ := (ofSource_reads source).spells ht
  exact hspells.proper

namespace Compiler

variable (source : String) (scope : Scope)

theorem start_ahead : (start (Tokens.ofSource source) scope).ahead < (Tokens.ofSource source).items.length + 1 :=
  Nat.lt_succ_of_le (moveTo_ahead_le _ _)

theorem start_reported : (start (Tokens.ofSource source) scope).Reported := (moveTo_keeps _ _).reported nofun

theorem start_orderly (hdraft : scope.draft = {}) : (start (Tokens.ofSource source) scope).Orderly true :=
  @moveTo_orderly _ 1 _ rfl (Tokens.ofSource_reads source).linesFrom (Nat.le_refl _) .nil nofun (.inr nofun)
    ⟨hdraft ▸ .empty _, nofun⟩

theorem start_candid : (start (Tokens.ofSource source) scope).Candid :=
  (moveTo_keeps _ _).candid nofun ⟨nofun, .slnil⟩

end Compiler

namespace Compile

variable {P Q : List Nest → Prop} {f : Nat → Grammar → Compile Unit}

theorem last_orders (hf : ∀ {n bound g}, Ordered bound n g → Orders ⟨true, P⟩ ⟨false, Q⟩ (n + 1) (f bound g))
    (source : String) (scope : Scope) : OrdersAt (.start (Tokens.ofSource source) scope) ⟨true, P⟩ ⟨false, Q⟩
      (f ((Tokens.ofSource source).items.length + 1) (.upTo ((Tokens.ofSource source).items.length + 1))) :=
  hf (upTo_ordered (Nat.lt_succ_self _) (Nat.le_succ _)) _ (Compiler.start_ahead source scope)

theorem last_script_orderly (name source : String) : (last source (.start .script name none) script).Orderly false :=
  (last_orders (f := script) (fun _ => (script_declares (w := ⟨.script, [], []⟩) fun _ => rfl).anywhere) source
    _ (Compiler.start_orderly source _ rfl)).1

theorem last_object_orderly (path source : String) :
    (last source (.start .object path (some path)) fun bound g => objectUnit bound g path).Orderly false :=
  (last_orders (P := fun _ => True) (f := fun bound g => objectUnit bound g path) (fun _ => objectUnit_orders path)
    source _ (Compiler.start_orderly source _ rfl)).1

end Compile

end Mudscript
