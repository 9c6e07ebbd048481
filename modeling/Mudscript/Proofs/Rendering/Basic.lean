import Mudscript.Proofs.Mirror

/-!
# Renderings of trees

What the parts of the compiler do when a rendering of a tree is ahead. `Follows` says it for each
category of trees: the part for that category mirrors the generation of the tree's code, and it takes
the tokens of the rendering and no more. What stands behind the rendering must not be drawn into it.

Expressions are the exception, because the compiler does not compile the left operand of an operator as
a unit: it compiles an operand and then whatever operators follow. `Spine` therefore speaks about the
compilation of an expression together with the operators behind it.
-/

namespace Mudscript

/-! ### What can stand behind an expression -/

namespace Precedence

/-- Operators behind an expression of a level bind more loosely than this. -/
def right : Precedence → Precedence
  | .equality => .comparison
  | .comparison => .term
  | .term => .factor
  | .factor => .unary
  | .call | .primary => .primary
  | p => p

theorem rank_le_rank_right (p : Precedence) : p.rank ≤ p.right.rank := by
  cases p <;> decide

theorem rank_right_le_tighter (p : Precedence) : p.right.rank ≤ p.tighter.right.rank := by
  cases p <;> decide

theorem rank_le_rank_tighter (p : Precedence) : p.rank ≤ p.tighter.rank := by
  cases p <;> decide

theorem rank_tighter_le {p q : Precedence} (h : p.rank < q.rank) : p.tighter.rank ≤ q.rank := by
  have htighter : p.tighter.rank ≤ p.rank + 1 := by cases p <;> decide
  omega

theorem rank_lt_rank_tighter {p : Precedence} (h : p ≠ .primary) : p.rank < p.tighter.rank := by
  cases p <;> first | decide | contradiction

theorem rank_le_rank_primary (p : Precedence) : p.rank ≤ Precedence.primary.rank := by
  cases p <;> decide

theorem eq_of_rank_eq {p q : Precedence} (h : p.rank = q.rank) : p = q := by
  cases p <;> cases q <;> first | rfl | cases h

theorem right_eq_tighter (op : BinaryOperator) : op.precedence.right = op.precedence.tighter := by
  cases op <;> rfl

end Precedence

def next (ts : List TokenKind) : TokenKind := ts.headD .endOfText

@[simp] theorem next_cons (k : TokenKind) (ts : List TokenKind) : next (k :: ts) = k := rfl

/-- The tokens end an expression of this level: its last operand does not draw them in. -/
structure MayFollow (p : Precedence) (ts : List TokenKind) : Prop where
  loose : (next ts).precedence.rank < p.right.rank
  noAssignment : (next ts).isAssignment = false
  noCall : p ≠ .primary → next ts ≠ .symbol .leftParen

/-- The tokens end the compilation of an expression of this level. -/
structure Stops (p : Precedence) (ts : List TokenKind) : Prop where
  loose : (next ts).precedence.rank < p.rank
  noAssignment : (next ts).isAssignment = false

theorem Stops.of_precedence {k : TokenKind} {ts} (hk : k.precedence = .none)
    (hassignment : k.isAssignment = false) : Stops .assignment (k :: ts) :=
  ⟨by rw [next_cons, hk]; decide, hassignment⟩

namespace MayFollow

variable {p : Precedence} {ts : List TokenKind}

theorem of_loose {k : TokenKind} (hloose : k.precedence.rank < p.right.rank)
    (hassignment : k.isAssignment = false) (hcall : p ≠ .primary → k ≠ .symbol .leftParen) :
    MayFollow p (k :: ts) := ⟨hloose, hassignment, hcall⟩

theorem tighter (h : MayFollow p ts) : MayFollow p.tighter ts where
  loose := Nat.lt_of_lt_of_le h.loose p.rank_right_le_tighter
  noAssignment := h.noAssignment
  noCall hp := h.noCall fun hprimary => hp (by rw [hprimary]; rfl)

theorem stops {q} (h : MayFollow p ts) (hq : p.right = q) : Stops q ts :=
  ⟨hq ▸ h.loose, h.noAssignment⟩

end MayFollow

theorem Stops.mayFollow {p ts} (h : Stops p ts) (hp : p ≤ .call) : MayFollow p ts where
  loose := Nat.lt_of_lt_of_le h.loose p.rank_le_rank_right
  noAssignment := h.noAssignment
  noCall _ hnext := by
    have hloose := h.loose
    rw [hnext] at hloose
    exact absurd hp (Nat.not_le.mpr hloose)

/-! ### First tokens -/

def TokenKind.startsExpression : TokenKind → Bool
  | .number _ | .text _ | .name _ => true
  | .keyword .nil | .keyword .true_ | .keyword .false_ | .keyword .this | .keyword .function => true
  | .symbol .leftParen | .symbol .minus | .symbol .bang | .symbol .doubleColon => true
  | _ => false

namespace Form

def isNullable : Form → Bool
  | .arguments | .parameters | .clause | .initializer | .declarations => true
  | _ => false

def starts : Form → TokenKind → Bool
  | .expression _, k | .arguments, k | .argumentList, k | .clause, k => k.startsExpression
  | .parameters, k | .parameterList, k =>
    match k with
    | .type _ | .name _ => true
    | _ => false
  | .function, k => k = .symbol .leftParen
  | .initializer, k => k = .symbol .equal
  | .variables, k =>
    match k with
    | .name _ => true
    | _ => false
  | .statement, k => statement k
  | .forInitializer, k => k = .symbol .semicolon || k.isType || k.startsExpression
  | .declaration, k | .declarations, k => k.isType || statement k
where
  statement (k : TokenKind) : Bool :=
    match k with
    | .keyword .if_ | .keyword .while_ | .keyword .for_ | .keyword .return_ | .keyword .break_
    | .keyword .continue_ | .symbol .leftBrace => true
    | k => k.startsExpression

end Form

/-- A rendering is empty, if the category allows it, or starts with a token of the category. -/
def Form.Opens (f : Form) : List TokenKind → Prop
  | [] => f.isNullable = true
  | k :: _ => f.starts k = true

namespace Form.Opens

variable {f f' : Form} {ts us : List TokenKind}

theorem append (h : f.Opens ts) (hf : f.isNullable = false) (hle : ∀ k, f.starts k → f'.starts k) :
    f'.Opens (ts ++ us) := by
  cases ts with
  | nil => exact absurd (h.symm.trans hf) nofun
  | cons k ts => exact hle k h

theorem mono (h : f.Opens ts) (hf : f.isNullable = false) (hle : ∀ k, f.starts k → f'.starts k) : f'.Opens ts := by
  have hnil : f'.Opens (ts ++ []) := h.append hf hle
  simpa using hnil

theorem next_ne (h : f.Opens ts) (hf : f.isNullable = false) {k} (hk : f.starts k = false) : next (ts ++ us) ≠ k := by
  cases ts with
  | nil => exact absurd (h.symm.trans hf) nofun
  | cons k' ts =>
    rintro rfl
    exact absurd (h.symm.trans hk) nofun

theorem isType_next (h : f.Opens ts) (hf : f.isNullable = false)
    (htype : ∀ type, f.starts (.type type) = false) : (next (ts ++ us)).isType = false := by
  cases hnext : next (ts ++ us) with
  | type type => exact absurd hnext (h.next_ne hf (htype type))
  | _ => rfl

end Form.Opens

theorem TokenKind.startsStatement_of_startsExpression {k : TokenKind}
    (h : k.startsExpression = true) : Form.starts.statement k = true := by
  unfold Form.starts.statement
  split
  all_goals first | rfl | exact h

theorem Derives.opens {nearest : Bool} {f : Form} {t : f.Tree} {ts} (h : Derives nearest f t ts) : f.Opens ts := by
  induction h with
  | literal l => cases l <;> rfl
  | @unary op _ _ _ _ => cases op <;> rfl
  | group | name | callName | this | superCall | lambda | assign => rfl
  | call _ _ ih _ | binary _ _ ih _ | and _ _ ih _ | or _ _ ih _ => exact ih.append rfl fun _ h => h
  | property _ _ ih | invoke _ _ _ ih _ | assignProperty _ _ _ ih _ => exact ih.append rfl fun _ h => h
  | tighter _ ih => exact ih.mono rfl fun _ h => h
  | noArguments | noParameters | noClause | noInitializer | noDeclarations => rfl
  | someArguments _ ih | lastArgument _ ih | someClause _ ih => exact ih.mono rfl fun _ h => h
  | argument _ _ ih _ => exact ih.append rfl fun _ h => h
  | someParameters _ ih => exact ih.mono rfl fun _ h => h
  | @lastParameter _ type _ => cases type <;> rfl
  | @parameter _ type _ _ _ _ _ => cases type <;> rfl
  | function | block | ifThen | ifElse | while_ | for_ | return_ | break_ | continue_ => rfl
  | expression _ ih => exact ih.append rfl fun _ => TokenKind.startsStatement_of_startsExpression
  | noFirst | firstVariables | functionDeclaration | variableDeclaration => rfl
  | firstExpression _ ih => exact ih.append rfl fun k h => by simp [Form.starts] at h ⊢; simp [h]
  | someInitializer | lastVariable | moreVariables => rfl
  | statement _ ih => exact ih.mono rfl fun k h => by simp [Form.starts] at h ⊢; simp [h]
  | declaration _ _ ih _ => exact ih.append rfl fun _ h => h

theorem Derives.loosen {nearest : Bool} {e ts p q}
    (hle : p ≤ q) (h : Derives nearest (.expression q) e ts) : Derives nearest (.expression p) e ts := by
  by_cases heq : p = q
  · exact heq ▸ h
  · have hlt : p.rank < q.rank := Nat.lt_of_le_of_ne hle fun hrank => heq (Precedence.eq_of_rank_eq hrank)
    exact .tighter (loosen (Precedence.rank_tighter_le hlt) h)
termination_by q.rank - p.rank
decreasing_by
  have hprimary : p ≠ .primary := by
    rintro rfl
    exact absurd (q.rank_le_rank_primary) (Nat.not_le.mpr hlt)
  have := Precedence.rank_lt_rank_tighter hprimary
  omega

/-! ### Operands and operators -/

namespace Compile

/-- The operators behind an operand, at most `k` of them. No assignment operator may follow. -/
def operators (bound : Nat) (g : Grammar) (minimum : Precedence) (k : Nat) : Compile Unit := do
  repeatUpTo (operation bound g minimum (minimum ≤ .assignment)) k
  if (← assignment? (minimum ≤ .assignment)).isSome then mistake .invalidAssignmentTarget

def chain (bound : Nat) (g : Grammar) (minimum : Precedence) (k : Nat) : Compile Unit := do
  advance
  if ← startWith bound g (← previous) (minimum ≤ .assignment) then operators bound g minimum k
  else mistake (.expected "expression")

theorem precedence_eq_chain (bound : Nat) (g : Grammar) (minimum : Precedence) :
    precedence bound g minimum = chain bound g minimum bound := rfl

namespace Mirrors

variable {δ : Type} {owner : Option String} {s : Scopes} {ps : List Piece} {c : Compiler}
  {bound k : Nat} {g : Grammar} {minimum : Precedence} {h : Generate δ} {R : Unit → Compiler → δ → Prop}

theorem start {kind ts} (hat : c.At owner (kind :: ts) s ps)
    (hf : MirrorsAt owner ts s ps (startWith bound g kind (minimum ≤ .assignment) >>= fun found =>
      if found then operators bound g minimum k else mistake (.expected "expression")) h R) :
    Mirrors (chain bound g minimum k) h c R :=
  take hat hf

theorem operator {kind : TokenKind} {ts} (hat : c.At owner (kind :: ts) s ps) (hkind : minimum ≤ kind.precedence)
    (hf : MirrorsAt owner ts s ps
      (continueWith bound g kind (minimum ≤ .assignment) >>= fun _ => operators bound g minimum k) h R) :
    Mirrors (operators bound g minimum (k + 1)) h c R := by
  unfold operators
  rw [repeatUpTo]
  simp only [operation, bind_assoc]
  refine current hat ?_
  rw [List.headD_cons, if_pos hkind]
  simp only [bind_assoc, pure_bind]
  exact advance hat hf

theorem stop {ts} {b : δ} (hat : c.At owner ts s ps) (hstop : Stops minimum ts)
    (hR : ∀ c', c'.At owner ts s ps → R () c' b) : Mirrors (operators bound g minimum k) (Pure.pure b) c R := by
  have hassignment : MirrorsAt owner ts s ps (assignment? (minimum ≤ .assignment) >>= fun found =>
      if found.isSome then mistake .invalidAssignmentTarget else Pure.pure ()) (Pure.pure b) R :=
    fun c' hat' => noAssignment hat' hstop.noAssignment (pure (hR c' hat'))
  unfold operators
  cases k with
  | zero => exact exhaust hat hassignment
  | succ k =>
    rw [repeatUpTo]
    simp only [operation, bind_assoc]
    refine current hat ?_
    have hloose : ¬ minimum ≤ (ts.headD .endOfText).precedence := Nat.not_le.mpr hstop.loose
    rw [if_neg hloose]
    exact hassignment c hat

end Mirrors

end Compile

open Compile (Mirrors)

/-- A rendering of an expression is followed by compiling an operand and the operators behind it: it
suffices to know what becomes of the operators behind the rendering. -/
structure Spine (owner : Option String) (p : Precedence) (e : Expression) (ts : List TokenKind) :
    Prop where
  nonempty : ts ≠ []
  chain : ∀ {δ : Type} {bound m k : Nat} {minimum : Precedence} {rest : List TokenKind} {c : Compiler}
    {s : Scopes} {ps : List Piece} {h : List Instruction → Generate δ} {R : Unit → Compiler → δ → Prop},
    ts.length ≤ bound → ts.length ≤ m + 1 → ts.length ≤ k → minimum ≤ p → minimum ≤ .call →
    MayFollow p rest → c.At owner (ts ++ rest) s ps →
    (∀ code k' c', k ≤ k' + ts.length → c'.At owner rest s (ps ++ written code) →
      Mirrors (Compile.operators bound (.upTo m) minimum k') (h code) c' R) →
    Mirrors (Compile.chain bound (.upTo m) minimum k) (e.code owner >>= h) c R

namespace Spine

variable {owner : Option String} {p : Precedence} {e : Expression} {ts rest : List TokenKind}
  {c : Compiler} {s : Scopes} {ps : List Piece}

theorem precedence (he : Spine owner p e ts) {bound m : Nat} (hbound : ts.length ≤ bound)
    (hm : ts.length ≤ m + 1) (hp : p ≤ .call) (hstop : Stops p rest) (hat : c.At owner (ts ++ rest) s ps) :
    Mirrors (Compile.precedence bound (.upTo m) p) (e.code owner) c
      fun _ c' is => c'.At owner rest s (ps ++ written is) := by
  refine .done (he.chain hbound hm hbound (Nat.le_refl _) hp (hstop.mayFollow hp) hat ?_)
  intro code k' c' _ hat'
  exact .stop hat' hstop fun _ h => h

theorem inside (he : Spine owner p e ts) {m : Nat} (hm : ts.length ≤ m) (hp : p ≤ .call)
    (hstop : Stops p rest) (hat : c.At owner (ts ++ rest) s ps) :
    Mirrors (Grammar.upTo m (.expression p)) (e.code owner) c
      fun _ c' is => c'.At owner rest s (ps ++ written is) := by
  cases m with
  | zero => exact absurd (List.eq_nil_of_length_eq_zero (Nat.le_zero.mp hm)) he.nonempty
  | succ m => exact he.precedence hm hm hp hstop hat

end Spine

open Generate (counted withCount)

/-- What a list of declarations ends with: `stop` looks whether it does. -/
structure Separates (owner : Option String) (stop : Compile Bool) (rest : List TokenKind) : Prop where
  continues : ∀ {c : Compiler} {k : TokenKind} {ts : List TokenKind} {s : Scopes} {ps : List Piece},
    c.At owner (k :: ts) s ps → Form.declaration.starts k = true → stop c = (false, c)
  ends : ∀ {c : Compiler} {s : Scopes} {ps : List Piece}, c.At owner rest s ps →
    ∃ c', stop c = (true, c') ∧ c'.scopes = c.scopes ∧ c'.At owner rest s ps
  noElse : next rest ≠ .keyword .else_

/-- Variables are declared when the name of the first one has been read. -/
def DeclaresAll (owner : Option String) (x : String) (vs : Declarators) (us : List TokenKind) : Prop :=
  ∀ {bound m k : Nat} {rest : List TokenKind} {c : Compiler} {s : Scopes} {ps : List Piece},
    us.length ≤ bound → us.length ≤ m + 1 → us.length ≤ k → c.At owner (us ++ .symbol .semicolon :: rest) s ps →
    Mirrors (do
        Compile.declareVariable bound (.upTo m) x
        Compile.repeatUpTo (Compile.anotherVariable bound (.upTo m)) k) (vs.code owner) c
      fun _ c' is => c'.At owner (.symbol .semicolon :: rest) s (ps ++ written is)

/-- What a part of the compiler does when a rendering of a tree of its category is ahead. -/
def Follows (owner : Option String) : (f : Form) → f.Tree → List TokenKind → Prop
  | .expression p, e, ts => Spine owner p e ts
  | .arguments, a, ts =>
    ∀ {bound m : Nat} {rest : List TokenKind} {c : Compiler} {s : Scopes} {ps : List Piece},
      ts.length ≤ bound → ts.length ≤ m → c.At owner (ts ++ .symbol .rightParen :: rest) s ps →
      Mirrors (Compile.arguments bound (.upTo m)) (counted a (a.code owner)) c
        fun count c' r => count = r.2 ∧ c'.At owner rest s (ps ++ written r.1)
  | .argumentList, a, ts =>
    ∀ {m k count : Nat} {rest : List TokenKind} {c : Compiler} {s : Scopes} {ps : List Piece},
      ts.length ≤ m → ts.length ≤ k → count ≤ Compile.maxArguments →
      c.At owner (ts ++ .symbol .rightParen :: rest) s ps →
      Mirrors (Compile.argumentsFrom (.upTo m) k count)
        (a.code owner >>= withCount (count + a.length)) c
        fun count c' r => count = r.2 ∧ c'.At owner (.symbol .rightParen :: rest) s (ps ++ written r.1)
  | .parameterList, xs, ts =>
    ∀ {k : Nat} {rest : List TokenKind} {c : Compiler} {s : Scopes} {ps : List Piece},
      ts.length ≤ k → c.At owner (ts ++ .symbol .rightParen :: rest) s ps →
      Mirrors (Compile.repeatUpTo Compile.parameter k) (xs.forM Generate.parameter) c
        fun _ c' _ => c'.At owner (.symbol .rightParen :: rest) s ps
  | .parameters, xs, ts =>
    ∀ {k : Nat} {rest : List TokenKind} {c : Compiler} {s : Scopes} {ps : List Piece},
      ts.length ≤ k → c.At owner (ts ++ .symbol .rightParen :: rest) s ps →
      Mirrors (do unless ← Compile.check (.symbol .rightParen) do Compile.repeatUpTo Compile.parameter k)
        (xs.forM Generate.parameter) c
        fun _ c' _ => c'.At owner (.symbol .rightParen :: rest) s ps
  | .function, (xs, body), ts =>
    ∀ {bound m : Nat} {kind : RoutineKind} {x : String} {rest : List TokenKind} {c : Compiler} {s : Scopes}
      {ps : List Piece}, ts.length ≤ bound → ts.length ≤ m → c.At owner (ts ++ rest) s ps →
      Mirrors (Compile.function bound (.upTo m) kind x) (Generate.routine kind owner x xs (body.code owner none)) c
        fun _ c' is => c'.At owner rest s (ps ++ written is)
  | .clause, .none, ts => ts = []
  | .clause, .some e, ts => Spine owner .assignment e ts ∧ Form.Opens (.expression .assignment) ts
  | .initializer, value, ts =>
    ∀ {bound m : Nat} {rest : List TokenKind} {c : Compiler} {s : Scopes} {ps : List Piece},
      ts.length ≤ bound → ts.length ≤ m + 1 → Stops .assignment rest → c.At owner (ts ++ rest) s ps →
      Mirrors (Compile.initializer bound (.upTo m))
        ((value.code? owner).getD (return [.pushNil])) c
        fun _ c' is => c'.At owner rest s (ps ++ written is)
  | .variables, vs, ts =>
    ∃ x us, ts = .name x :: us ∧ next us ≠ .symbol .leftParen ∧ DeclaresAll owner x vs us
  | .statement, t, ts =>
    ∀ {bound m : Nat} {l : Option LoopSite} {rest : List TokenKind} {c : Compiler},
      ts.length ≤ bound → ts.length ≤ m + 1 → (t.endsOpen = true → next rest ≠ .keyword .else_) →
      c.At owner (ts ++ rest) c.scopes [] → c.scopes.AtSite l →
      Mirrors (Compile.statement bound (.upTo m)) (t.code owner l) c
        fun _ c' qs => c'.At owner rest c.scopes qs
  | .forInitializer, first, ts =>
    ∀ {bound m : Nat} {l : Option LoopSite} {rest : List TokenKind} {c : Compiler},
      ts.length ≤ bound → ts.length ≤ m + 1 → c.At owner (ts ++ rest) c.scopes [] →
      Mirrors (Compile.forInitializer bound (.upTo m)) (first.code owner l) c
        fun _ c' qs => c'.At owner rest c.scopes qs
  | .declaration, d, ts =>
    ∀ {bound m : Nat} {l : Option LoopSite} {rest : List TokenKind} {c : Compiler},
      ts.length ≤ bound → ts.length ≤ m + 1 → next rest ≠ .keyword .else_ →
      c.At owner (ts ++ rest) c.scopes [] → c.scopes.AtSite l →
      Mirrors (Compile.declaration bound (.upTo m)) (d.code owner l) c
        fun _ c' qs => c'.At owner rest c.scopes qs
  | .declarations, ds, ts =>
    ∀ {k : Nat} {l : Option LoopSite} {rest : List TokenKind} {c : Compiler} {stop : Compile Bool}
      {x : Compile Unit},
      (ts ≠ [] → ∃ bound m, x = Compile.declaration bound (.upTo m) ∧ ts.length ≤ bound ∧
        ts.length ≤ m + 1) →
      ts.length ≤ k → Separates owner stop rest → c.At owner (ts ++ rest) c.scopes [] →
      c.scopes.AtSite l →
      Mirrors (Compile.repeatUpTo (do
          if ← stop then return false
          x
          return true) k) (ds.code owner l) c
        fun _ c' qs => c'.At owner rest c.scopes qs

end Mudscript
