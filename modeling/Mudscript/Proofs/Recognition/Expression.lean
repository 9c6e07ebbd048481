import Mudscript.Proofs.Recognition.Basic

/-!
# Expressions that were read

The operators behind an operand are taken one by one, and the tree grows to the left. `Fits` is what is
known of the tree between two operators: its level is tight enough for the expression at hand, and the
token ahead binds more loosely than what was taken last.
-/

namespace Mudscript

open Compile

variable {x : Compile Unit} {kind : TokenKind}

theorem TokenKind.rank_precedence_lt (k : TokenKind) : k.precedence.rank < Precedence.primary.rank := by
  cases k with
  | symbol s => cases s <;> decide
  | _ => exact Nat.zero_lt_succ 9

namespace Precedence

theorem le_of_rank_lt_right {p q : Precedence} (h : q.rank < p.right.rank) : q ≤ p := by
  have hright : p.right.rank ≤ p.rank + 1 := by cases p <;> decide
  exact Nat.le_of_lt_succ (Nat.lt_of_lt_of_le h hright)

theorem equality_le {p : Precedence} : Precedence.and.rank < p.right.rank → .equality ≤ p := by
  cases p <;> decide

theorem and_le {p : Precedence} : Precedence.or.rank < p.right.rank → .and ≤ p := by
  cases p <;> decide

end Precedence

/-- The tree of the tokens taken so far in an expression whose operators bind at least as tightly as
`minimum`, with the token ahead. -/
structure Fits (minimum p : Precedence) (e : Expression) (us : List TokenKind) (k : TokenKind) : Prop where
  derives : Derives true (.expression p) e us
  level : minimum ≤ p
  loose : k.precedence.rank < p.right.rank
  /-- A call is of a name, or of something that is not read as a method. -/
  callable : k = .symbol .leftParen → p = .primary ∨ ∃ x, IsName x ∧ e = .name x ∧ us = [.name x]

namespace Fits

variable {minimum : Precedence} {e : Expression} {us : List TokenKind} {k : TokenKind}

theorem primary (h : Derives true (.expression .primary) e us) (hminimum : minimum ≤ .unary) :
    Fits minimum .primary e us k where
  derives := h
  level := Nat.le_trans hminimum (by decide)
  loose := TokenKind.rank_precedence_lt _
  callable _ := .inl rfl

theorem ofEnds {p : Precedence} (h : Derives true (.expression p) e us) (hlevel : minimum ≤ p)
    (hp : p ≤ .unary) (hloose : k.precedence.rank < p.right.rank) : Fits minimum p e us k where
  derives := h
  level := hlevel
  loose := hloose
  callable hcall := by
    rw [hcall] at hloose
    have hright : p.right.rank ≤ Precedence.unary.rank := by
      revert hp
      cases p <;> decide
    exact absurd hright (Nat.not_le.mpr (Nat.lt_trans (by decide) hloose))

end Fits

/-- An expression was taken, as far as its operators were read. -/
def Extends (minimum : Precedence) (text : List (Option TokenKind)) (ts : List TokenKind) (c : Compiler) : Prop :=
  ∃ p e us, Fits minimum p e us c.current.kind ∧ c.Past text (ts ++ us)

namespace Compile

variable {bound : Nat} {g : Grammar} {c : Compiler} {text : List (Option TokenKind)} {ts : List TokenKind}

section

variable (hg : Reads g) (h : c.Past text ts)

include hg h

theorem operand_yields : Yields (operand g) c fun _ => TookExpression .assignment text ts :=
  hg.expression h (by decide) (by decide)

theorem argument_yields (count : Nat) : Yields (argument g count) c fun _ => TookExpression .assignment text ts := by
  refine .bind (operand_yields hg h) fun _ c1 h1 => ?_
  split
  · obtain ⟨e, us, he, h1, _⟩ := h1
    exact .mistake h1.reported
  · exact .pure h1

/-! ### Arguments -/

theorem argumentsFrom_yields (k count : Nat) :
    Yields (argumentsFrom g k count) c fun _ => Took .argumentList text ts := by
  induction k generalizing c ts count with
  | zero => exact .exhaust
  | succ k ih =>
    rw [argumentsFrom]
    refine .bind (argument_yields hg h count) ?_
    rintro count' c1 ⟨e, us, he, h1, _⟩
    refine .accept h1 (by decide) (fun _ c2 h2 => (ih h2 count').mono ?_)
      fun _ => .pure ⟨_, us, .lastArgument he, h1, trivial⟩
    rintro _ c3 ⟨a, vs, ha, h3, _⟩
    exact ⟨_, _, .argument he ha, by simpa using h3, trivial⟩

theorem arguments_yields : Yields (arguments bound g) c fun _ => TookUpTo (.symbol .rightParen) .arguments text ts := by
  unfold arguments
  refine .check (fun _ => ?_) fun _ => ?_
  · rw [if_pos rfl, pure_bind]
    exact .expect h nofun fun c1 h1 => .pure ⟨.nil, [], .noArguments, by simpa using h1⟩
  · rw [if_neg nofun]
    exact .bind (argumentsFrom_yields hg h bound 0) fun _ c1 ⟨a, us, ha, h1, _⟩ => .expect h1 nofun fun c2 h2 =>
      .pure ⟨a, us, .someArguments ha, h2⟩

/-! ### Variables and properties -/

theorem assignVariable_yields (access : Access) (operator : TokenKind) :
    Yields (assignVariable g access operator) c fun _ => TookExpression .assignment text ts := by
  unfold assignVariable
  cases compoundOperation? operator with
  | none => exact (operand_yields hg h).took
  | some operation => exact .silent h fun _ c1 h1 => (operand_yields hg h1).took

theorem assignProperty_yields (name : Nat) (operator : TokenKind) :
    Yields (assignProperty g name operator) c fun _ => TookExpression .assignment text ts := by
  unfold assignProperty
  cases compoundOperation? operator with
  | none => exact (operand_yields hg h).took
  | some operation => exact .silent h fun _ c1 h1 => .silent h1 fun _ c2 h2 => (operand_yields hg h2).took

theorem useProperty_yields (name : Nat) : Yields (useProperty bound g name none) c fun _ c' =>
      TookUpTo (.symbol .rightParen) .arguments text (ts ++ [.symbol .leftParen]) c' ∨
        (c'.current.kind ≠ .symbol .leftParen ∧ c'.Past text ts) := by
  unfold useProperty
  refine .accept h nofun (fun _ c1 h1 => ?_) fun hne => ?_
  · refine .bind (arguments_yields hg h1) fun _ c2 ⟨a, us, ha, h2⟩ => ?_
    exact .last (.silent h2 fun _ c3 h3 => .pure (.inl ⟨a, us, ha, h3⟩))
  · rw [if_neg nofun]
    intro hclean
    have hread := Silent.past h hclean
    exact .inr ⟨hread.2 ▸ hne, hread.1⟩

end

variable {minimum : Precedence}

theorem variable_yields (hg : Reads g) {x : String} (hx : IsName x) (h : c.Past text (ts ++ [.name x]))
    (hminimum : minimum ≤ .unary) :
    Yields (variable_ bound g x (minimum ≤ .assignment)) c fun _ => Extends minimum text ts := by
  have hread {k : TokenKind} : Fits minimum .call (.name x) [.name x] k :=
    ⟨.name hx, Nat.le_trans hminimum (by decide), TokenKind.rank_precedence_lt _,
      fun _ => .inr ⟨x, hx, rfl, rfl⟩⟩
  rw [variable_eq_resolve]
  refine .silent h fun result c1 h1 => ?_
  unfold useName
  split
  · exact .last (.mistake h1.reported)
  · rename_i name
    refine .assignment h1 (fun op c2 hcan h2 => ?_) fun _ => ?_
    · rw [receiverProperty_eq]
      exact .silent h2 fun _ c3 h3 => (assignProperty_yields hg h3 name _).mono fun _ c4 ⟨e, us, he, h4, hends⟩ =>
        ⟨_, _, _, .ofEnds (.assign hx he) (of_decide_eq_true hcan) (by decide) hends, by simpa using h4⟩
    · rw [receiverProperty_eq]
      refine .silent h1 fun _ c2 h2 => (useProperty_yields hg h2 name).mono fun _ c3 huse => ?_
      rcases huse with ⟨a, us, ha, h3⟩ | ⟨_, h3⟩
      · exact ⟨_, _, _, .primary (.callName hx ha) hminimum, by simpa using h3⟩
      · exact ⟨_, _, _, hread, h3⟩
  · rename_i access _
    refine .assignment h1 (fun op c2 hcan h2 => ?_) fun _ => ?_
    · exact (assignVariable_yields hg h2 access _).mono fun _ c3 ⟨e, us, he, h3, hends⟩ =>
        ⟨_, _, _, .ofEnds (.assign hx he) (of_decide_eq_true hcan) (by decide) hends, by simpa using h3⟩
    · show Yields (emitGet access) c1 _
      exact .last (.silent h1 fun _ c2 h2 => .pure ⟨_, _, _, hread, h2⟩)

/-! ### Functions -/

theorem declarations_yields {stop : Compile Bool} {E : List TokenKind → Compiler → Prop} (k : Nat)
    (hstop : ∀ {c ts}, c.Past text ts → Yields stop c fun ended c' => if ended then E ts c' else c'.Past text ts)
    (hx : ∀ {c ts}, c.Past text ts → Yields x c fun _ => Took .declaration text ts) (h : c.Past text ts) :
    Yields (repeatUpTo (do
        if ← stop then return false
        x
        return true) k) c fun _ c' => ∃ ds us, Derives true .declarations ds us ∧ E (ts ++ us) c' := by
  induction k generalizing c ts with
  | zero => exact .last .exhaust
  | succ k ih =>
    rw [repeatUpTo]
    simp only [bind_assoc]
    refine .bind (hstop h) fun ended c1 h1 => ?_
    cases ended with
    | true =>
      refine fun _ => ⟨.nil, [], .noDeclarations, ?_⟩
      rw [List.append_nil]
      exact h1
    | false =>
      simp only [Bool.false_eq_true, if_false, bind_assoc, pure_bind, if_true]
      refine .bind (hx h1) ?_
      rintro _ c2 ⟨d, us, hd, h2, _⟩
      refine (ih h2).mono ?_
      rintro _ c3 ⟨ds, vs, hds, h3⟩
      exact ⟨_, _, .declaration hd hds, by simpa using h3⟩

theorem block_yields (hg : Reads g) (h : c.Past text ts) :
    Yields (block bound g) c fun _ => TookUpTo (.symbol .rightBrace) .declarations text ts := by
  have hstop {c : Compiler} {ts : List TokenKind} (h : c.Past text ts) :
      Yields atBlockEnd c fun ended c' => if ended then c'.Past text ts else c'.Past text ts := by
    intro _
    rw [ite_self]
    exact h
  exact .bind (declarations_yields bound hstop hg.declaration h) fun _ c1 ⟨ds, us, hds, h1⟩ =>
    .last (.expect h1 nofun fun c2 h2 => .pure ⟨ds, us, hds, h2⟩)

theorem parameter_yields (h : c.Past text ts) : Yields parameter c fun again c' => ∃ x type, IsName x ∧
      c'.Past text (ts ++ optionalType type ++ [.name x] ++ if again then [.symbol .comma] else []) := by
  have hnamed {c : Compiler} {ts : List TokenKind} (h : c.Past text ts) : Yields (do
      declare (← expectName "parameter name")
      define
      accept (.symbol .comma)) c fun again c' => ∃ x, IsName x ∧
        c'.Past text (ts ++ [.name x] ++ if again then [.symbol .comma] else []) := by
    refine .expectName h fun x c1 hx h1 => .silent h1 fun _ c2 h2 => .silent h2 fun _ c3 h3 => ?_
    exact .last (.accept h3 (by decide) (fun _ c4 h4 => .pure ⟨x, hx, h4⟩) fun _ => .pure ⟨x, hx, by simpa using h3⟩)
  have htyped {c : Compiler} (h : c.Past text ts) : Yields (do
      if (← current).isType then advance
      declare (← expectName "parameter name")
      define
      accept (.symbol .comma)) c fun again c' => ∃ x type, IsName x ∧
        c'.Past text (ts ++ optionalType type ++ [.name x] ++ if again then [.symbol .comma] else []) := by
    refine .current ?_
    split
    · rename_i htype
      obtain ⟨type, htype⟩ := TokenKind.eq_type_of_isType htype
      refine .advance h htype (by simp) fun c1 h1 => (hnamed h1).mono ?_
      rintro _ c2 ⟨x, hx, h2⟩
      exact ⟨x, some type, hx, h2⟩
    · refine (hnamed h).mono ?_
      rintro _ c2 ⟨x, hx, h2⟩
      exact ⟨x, none, hx, by simpa [optionalType] using h2⟩
  unfold parameter
  refine .silent h fun s c1 h1 => ?_
  split
  · exact .silent h1 fun _ c2 h2 => htyped h2
  · exact .silent h1 fun _ c2 h2 => htyped h2

theorem parameterList_yields (h : c.Past text ts) (k : Nat) :
    Yields (repeatUpTo parameter k) c fun _ => Took .parameterList text ts := by
  induction k generalizing c ts with
  | zero => exact .last .exhaust
  | succ k ih =>
    rw [repeatUpTo]
    refine .bind (parameter_yields h) ?_
    rintro (_ | _) c1 ⟨x, type, hx, h1⟩
    · exact .pure ⟨_, _, .lastParameter hx, by simpa using h1, trivial⟩
    · refine (ih h1).mono ?_
      rintro _ c2 ⟨xs, us, hxs, h2, _⟩
      exact ⟨_, _, .parameter hx hxs, by simpa using h2, trivial⟩

theorem function_yields (hg : Reads g) (h : c.Past text ts) (kind : RoutineKind) (x : String) :
    Yields (function bound g kind x) c fun _ => Took .function text ts := by
  rw [function_eq]
  refine .silent h fun _ c1 h1 => .silent h1 fun _ c2 h2 => .expect h2 nofun fun c3 h3 => ?_
  refine .bind (Q := fun _ => Took .parameters text (ts ++ [.symbol .leftParen])) ?_ fun _ c4 ⟨xs, us, hxs, h4, _⟩ => ?_
  · refine .check (fun _ => ?_) fun _ => ?_
    · exact .pure ⟨[], [], .noParameters, by simpa using h3, trivial⟩
    · exact (parameterList_yields h3 bound).mono fun _ c4 ⟨xs, us, hxs, h4⟩ => ⟨xs, us, .someParameters hxs, h4⟩
  · refine .expect h4 nofun fun c5 h5 => .expect h5 nofun fun c6 h6 => ?_
    refine .bind (block_yields hg h6) fun _ c7 ⟨body, vs, hbody, h7⟩ => ?_
    exact .last (.silent h7 fun _ c8 h8 => .pure ⟨(xs, body), _, .function hxs hbody, by simpa using h8, trivial⟩)

/-! ### Operands -/

theorem grouping_yields (hg : Reads g) (h : c.Past text (ts ++ [.symbol .leftParen])) (hminimum : minimum ≤ .unary) :
    Yields (grouping g) c fun _ => Extends minimum text ts := by
  refine .bind (operand_yields hg h) fun _ c1 ⟨e, us, he, h1, _⟩ => .last (.expect h1 nofun fun c2 h2 => .pure ?_)
  exact ⟨_, _, _, .primary (.group he) hminimum, by simpa using h2⟩

theorem unary_yields (hg : Reads g) (op : UnaryOperator) (h : c.Past text (ts ++ [.symbol op.symbol]))
    (hminimum : minimum ≤ .unary) : Yields (unary g op.operation) c fun _ => Extends minimum text ts :=
  (hg.expression h (by decide) (by decide)).took.mono fun _ c1 ⟨e, us, he, h1, hends⟩ =>
    ⟨_, _, _, .ofEnds (.unary he) hminimum (by decide) hends, by simpa using h1⟩

theorem superCall_yields (hg : Reads g) (h : c.Past text (ts ++ [.symbol .doubleColon]))
    (hminimum : minimum ≤ .unary) : Yields (superCall bound g) c fun _ => Extends minimum text ts := by
  unfold superCall
  refine .silent h fun c' c1 h1 => ?_
  split
  · exact .last (.mistake h1.reported)
  · refine .expectName h1 fun x c2 hx h2 => .silent h2 fun name c3 h3 => ?_
    refine .expect h3 nofun fun c4 h4 => .silent h4 fun _ c5 h5 => ?_
    refine .bind (arguments_yields hg h5) fun count c6 ⟨a, us, ha, h6⟩ => ?_
    refine .silent h6 fun _ c7 h7 => .silent h7 fun _ c8 h8 => .last (.silent h8 fun _ c9 h9 => .pure ?_)
    exact ⟨_, _, _, .primary (.superCall hx ha) hminimum, by simpa using h9⟩

theorem token_yields [Silent x] {e : Expression}
    (h : c.Past text (ts ++ [kind])) (he : Derives true (.expression .primary) e [kind])
    (hminimum : minimum ≤ .unary) : Yields x c fun _ => Extends minimum text ts :=
  .last (.silent h fun _ _ h1 => .pure ⟨_, _, _, .primary he hminimum, h1⟩)

theorem this_yields (h : c.Past text (ts ++ [.keyword .this])) (hminimum : minimum ≤ .unary) :
    Yields this c fun _ => Extends minimum text ts := by
  have : Silent this := by
    unfold this
    infer_instance
  exact token_yields h .this hminimum

variable (hg : Reads g)

include hg

theorem startWith_yields (hkind : kind.Proper) (h : c.Past text (ts ++ [kind]))
    (hminimum : minimum ≤ .unary) : Yields (startWith bound g kind (minimum ≤ .assignment)) c fun found c' =>
      if found then Extends minimum text ts c' else c'.Reported := by
  have hstart {x : Compile Unit} (hx : Yields x c fun _ => Extends minimum text ts) :
      Yields (x >>= fun _ => pure true) c fun found c' =>
        if found then Extends minimum text ts c' else c'.Reported :=
    .bind hx fun _ c1 h1 => .pure h1
  unfold startWith
  split
  · exact hstart (grouping_yields hg h hminimum)
  · exact hstart (unary_yields hg .negate h hminimum)
  · exact hstart (unary_yields hg .not h hminimum)
  · rename_i value
    exact hstart (token_yields h (.literal (.number value)) hminimum)
  · rename_i value
    exact hstart (token_yields h (.literal (.text value)) hminimum)
  · exact hstart (token_yields h (.literal .nil) hminimum)
  · exact hstart (token_yields h (.literal .true_) hminimum)
  · exact hstart (token_yields h (.literal .false_) hminimum)
  · exact hstart (variable_yields hg hkind h hminimum)
  · exact hstart (this_yields h hminimum)
  · refine hstart ((function_yields hg h .function "").mono ?_)
    rintro _ c1 ⟨⟨xs, body⟩, us, hfunction, h1, _⟩
    exact ⟨_, _, _, .primary (.lambda hfunction) hminimum, by simpa using h1⟩
  · exact hstart (superCall_yields hg h hminimum)
  · exact .pure h.reported

/-! ### Operators -/

variable {p : Precedence} {e : Expression} {us : List TokenKind}

theorem call_yields (he : Fits minimum p e us (.symbol .leftParen))
    (h : c.Past text (ts ++ us ++ [.symbol .leftParen])) (hminimum : minimum ≤ .unary) :
    Yields (call bound g) c fun _ => Extends minimum text ts := by
  refine .bind (arguments_yields hg h) fun count c1 ⟨a, vs, ha, h1⟩ => .last (.silent h1 fun _ c2 h2 => .pure ?_)
  rcases he.callable rfl with rfl | ⟨x, hx, rfl, rfl⟩
  · exact ⟨_, _, _, .primary (he.derives.call ha) hminimum, by simpa using h2⟩
  · exact ⟨_, _, _, .primary (.callName hx ha) hminimum, by simpa using h2⟩

theorem arrow_yields (he : Fits minimum p e us (.symbol .arrow))
    (h : c.Past text (ts ++ us ++ [.symbol .arrow])) (hminimum : minimum ≤ .unary) :
    Yields (arrow bound g (minimum ≤ .assignment)) c fun _ => Extends minimum text ts := by
  have hcall : Derives true (.expression .call) e us :=
    he.derives.loosen (Precedence.le_of_rank_lt_right he.loose)
  rw [arrow_eq]
  refine .expectName h fun x c1 hx h1 => .silent h1 fun name c2 h2 => ?_
  refine .assignment h2 (fun op c3 hcan h3 => ?_) fun _ => ?_
  · exact (assignProperty_yields hg h3 name _).mono fun _ c4 ⟨v, vs, hv, h4, hends⟩ =>
      ⟨_, _, _, .ofEnds (hcall.assignProperty hx hv) (of_decide_eq_true hcan) (by decide) hends,
        by simpa using h4⟩
  · refine (useProperty_yields hg h2 name).mono fun _ c3 huse => ?_
    rcases huse with ⟨a, vs, ha, h3⟩ | ⟨hne, h3⟩
    · exact ⟨_, _, _, .primary (hcall.invoke hx ha) hminimum, by simpa using h3⟩
    · exact ⟨.call, _, _, ⟨hcall.property hx, Nat.le_trans hminimum (by decide), TokenKind.rank_precedence_lt _,
        fun hnext => absurd hnext hne⟩, by simpa using h3⟩

theorem conjunction_yields (he : Fits minimum p e us (.symbol .and))
    (h : c.Past text (ts ++ us ++ [.symbol .and])) (hand : minimum ≤ .and) :
    Yields (conjunction g) c fun _ => Extends minimum text ts := by
  refine .silent h fun toEnd c1 h1 => .silent h1 fun _ c2 h2 => ?_
  exact (hg.expression h2 (by decide) (by decide)).took.mono fun _ c3 ⟨r, vs, hr, h3, hends⟩ =>
    ⟨_, _, _, .ofEnds (.and (he.derives.loosen (Precedence.equality_le he.loose)) hr) hand (by decide) hends,
      by simpa using h3⟩

theorem disjunction_yields (he : Fits minimum p e us (.symbol .or))
    (h : c.Past text (ts ++ us ++ [.symbol .or])) (hor : minimum ≤ .or) :
    Yields (disjunction g) c fun _ => Extends minimum text ts := by
  refine .silent h fun toRight c1 h1 => .silent h1 fun toEnd c2 h2 => .silent h2 fun _ c3 h3 =>
    .silent h3 fun _ c4 h4 => ?_
  exact (hg.expression h4 (by decide) (by decide)).took.mono fun _ c5 ⟨r, vs, hr, h5, hends⟩ =>
    ⟨_, _, _, .ofEnds (.or (he.derives.loosen (Precedence.and_le he.loose)) hr) hor (by decide) hends,
      by simpa using h5⟩

theorem binary_yields {op : BinaryOperator} (he : Fits minimum p e us (.symbol op.symbol))
    (h : c.Past text (ts ++ us ++ [.symbol op.symbol])) (hop : minimum ≤ op.precedence) :
    Yields (binary g (.symbol op.symbol)) c fun _ => Extends minimum text ts := by
  have hlevels : .assignment ≤ op.precedence.tighter ∧ op.precedence.tighter ≤ .unary ∧
      op.precedence ≤ .unary := by
    cases op <;> decide
  have hloose := he.loose
  rw [op.precedence_symbol] at hloose
  unfold binary
  rw [op.binaryOperation?_symbol, op.precedence_symbol]
  refine (hg.expression h hlevels.1 hlevels.2.1).took.mono fun _ c1 ⟨r, vs, hr, h1, hends⟩ =>
    ⟨op.precedence, .binary op e r, _, .ofEnds (.binary (he.derives.loosen (Precedence.le_of_rank_lt_right hloose)) hr)
      hop hlevels.2.2 ?_, by simpa using h1⟩
  rw [Precedence.right_eq_tighter]
  exact hends

theorem continueWith_yields (he : Fits minimum p e us kind)
    (h : c.Past text (ts ++ us ++ [kind])) (hlow : .assignment ≤ minimum) (hhigh : minimum ≤ .unary)
    (hkind : minimum ≤ kind.precedence) :
    Yields (continueWith bound g kind (minimum ≤ .assignment)) c fun _ => Extends minimum text ts := by
  have hoperator : kind.precedence ≠ .none := by
    intro hnone
    rw [hnone] at hkind
    exact absurd (Nat.le_trans hlow hkind) (by decide)
  rcases precedence_ne_none_cases hoperator with rfl | rfl | rfl | rfl | ⟨i, hi⟩
  · exact conjunction_yields hg he h hkind
  · exact disjunction_yields hg he h hkind
  · exact call_yields hg he h hhigh
  · exact arrow_yields hg he h hhigh
  · obtain ⟨op, rfl, _⟩ := BinaryOperator.eq_symbol_of_binaryOperation? hi
    rw [op.precedence_symbol] at hkind
    have hbinary : continueWith bound g (.symbol op.symbol) (minimum ≤ .assignment)
        = binary g (.symbol op.symbol) := by
      cases op <;> rfl
    rw [hbinary]
    exact binary_yields hg he h hkind

theorem operators_yields (he : Fits minimum p e us c.current.kind) (h : c.Past text (ts ++ us))
    (k : Nat) (hlow : .assignment ≤ minimum) (hhigh : minimum ≤ .unary) :
    Yields (operators bound g minimum k) c fun _ => TookExpression minimum text ts := by
  induction k generalizing c p e us with
  | zero => exact .exhaust
  | succ k ih =>
    unfold operators
    rw [repeatUpTo]
    simp only [operation, bind_assoc]
    refine .current ?_
    split
    · rename_i hkind
      have hne : c.current.kind ≠ .endOfText := by
        intro heq
        rw [heq] at hkind
        exact absurd (Nat.le_trans hlow hkind) (by decide)
      simp only [bind_assoc, pure_bind]
      refine .advance h rfl hne fun c1 h1 => .bind (continueWith_yields hg he h1 hlow hhigh hkind) ?_
      rintro _ c2 ⟨_, _, _, he', h2⟩
      exact ih he' h2
    · rename_i hloose
      simp only [pure_bind, Bool.false_eq_true, if_false]
      refine .assignment h (fun op c' _ h' => .last (.mistake h'.reported)) fun _ => .pure ?_
      exact ⟨e, us, he.derives.loosen he.level, h, Nat.not_le.mp hloose⟩

theorem precedence_yields (h : c.Past text ts) (hlow : .assignment ≤ minimum)
    (hhigh : minimum ≤ .unary) : Yields (precedence bound g minimum) c fun _ => TookExpression minimum text ts := by
  have hend : startWith bound g .endOfText (minimum ≤ .assignment) = pure false := rfl
  rw [precedence_eq_chain]
  refine .take h (fun c1 h1 => ?_) fun kind c1 hkind h1 => ?_
  · rw [hend, pure_bind]
    exact .last (.mistake h1)
  refine .bind (startWith_yields hg hkind h1 hhigh) fun found c2 hstarts => ?_
  cases found with
  | false => exact .last (.mistake hstarts)
  | true =>
    obtain ⟨p, e, us, he, h2⟩ := hstarts
    exact operators_yields hg he h2 bound hlow hhigh

end Compile

end Mudscript
