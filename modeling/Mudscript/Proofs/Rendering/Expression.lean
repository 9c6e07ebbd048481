import Mudscript.Proofs.Rendering.Basic

/-!
# Renderings of expressions
-/

namespace Mudscript

open List

variable {access : Access} {value : Expression}

variable {a : Arguments} {op : AssignmentOperator}

theorem BinaryOperator.legible_operation (op : BinaryOperator) (constants : Array Constant) :
    op.operation.Legible constants := by
  cases op <;> trivial

namespace Compile

variable {bound m : Nat} {g : Grammar}

theorem emitGet_eq (h : access.isProperty = false) : emitGet access = emit access.get := by
  cases access with
  | property _ => cases h
  | _ => rfl

theorem emitSet_eq (access : Access) : emitSet access = emit access.set := by
  cases access <;> rfl

theorem Access.legible_get (access : Access) (constants : Array Constant) : access.get.Legible constants := by
  cases access <;> trivial

theorem Access.legible_set (access : Access) (constants : Array Constant) : access.set.Legible constants := by
  cases access <;> trivial

def useVariable (g : Grammar) (access : Access) : Option TokenKind → Compile Unit
  | some operator => assignVariable g access operator
  | none => emitGet access

/-- What becomes of a property of the value on top of the stack: an assignment, a call or a read. -/
def useProperty (bound : Nat) (g : Grammar) (name : Nat) : Option TokenKind → Compile Unit
  | some operator => assignProperty g name operator
  | none => do
    if ← accept (.symbol .leftParen) then emit (.invoke name (← arguments bound g))
    else emit (.getProperty name)

theorem receiverProperty_eq (name : Nat) (assignment : Option TokenKind) : receiverProperty bound g name assignment
      = emitReceiver >>= fun _ => useProperty bound g name assignment := by
  cases assignment <;> rfl

theorem arrow_eq (canAssign : Bool) : arrow bound g canAssign = expectName "property name after '->'" >>= fun x =>
      constant (.text x) >>= fun name => assignment? canAssign >>= useProperty bound g name := by
  unfold arrow
  refine bind_congr fun x => bind_congr fun name => bind_congr fun assignment => ?_
  cases assignment <;> rfl

def useName (bound : Nat) (g : Grammar) (canAssign : Bool) : Except ScopeFault Access → Compile Unit
  | .error fault => mistake (.scope fault)
  | .ok (.property name) => assignment? canAssign >>= receiverProperty bound g name
  | .ok access => assignment? canAssign >>= useVariable g access

theorem variable_eq_resolve (x : String) (canAssign : Bool) :
    variable_ bound g x canAssign = resolve x >>= useName bound g canAssign := by
  unfold variable_
  congr 1
  funext result
  match result with
  | .error _ | .ok (.property _) => rfl
  | .ok (.local_ _) | .ok (.upvalue _) | .ok (.global _) =>
    refine bind_congr fun assignment => ?_
    cases assignment <;> rfl

namespace Mirrors

variable {γ δ : Type} {owner : Option String} {ts us rest : List TokenKind} {s : Scopes} {ps : List Piece}
  {c : Compiler} {R : γ → Compiler → δ → Prop} {f : Unit → Compile γ}
  {k : List Instruction → Generate δ}

theorem name {x : String} {canAssign : Bool} {variable_ property} (h : c.At owner ts s ps)
    (hproperty : ∀ name, MirrorsAt owner ts s ps
      (assignment? canAssign >>= fun assignment => receiverProperty bound g name assignment >>= f)
      (Generate.receiver >>= fun this => property name >>= fun code => k (this ++ code)) R)
    (hvariable : ∀ access c', access.isProperty = false → c'.At owner ts s ps →
      Mirrors (assignment? canAssign >>= fun assignment => useVariable g access assignment >>= f)
        (variable_ access >>= k) c' R) :
    Mirrors (Compile.variable_ bound g x canAssign >>= f) (Generate.onName x variable_ property >>= k)
      c R := by
  rw [variable_eq_resolve]
  simp only [Generate.onName, bind_assoc]
  refine resolve h (fun fault c' hreported => (f ()).errors_ne (mistake_errors_ne hreported _))
    fun access c' h' => ?_
  cases access with
  | property name =>
    simp only [useName, bind_assoc, pure_bind]
    exact hproperty name c' h'
  | local_ slot => exact hvariable (.local_ slot) c' rfl h'
  | upvalue index => exact hvariable (.upvalue index) c' rfl h'
  | global name => exact hvariable (.global name) c' rfl h'

theorem assignVariable (hvalue : Spine owner .assignment value us) (hm : us.length ≤ m) (hstop : Stops .assignment rest)
    (haccess : access.isProperty = false) (h : c.At owner (us ++ rest) s ps)
    (hf : ∀ is, MirrorsAt owner rest s (ps ++ written is) (f ()) (k is) R) :
    Mirrors (Compile.assignVariable (.upTo m) access (.symbol op.symbol) >>= f)
      (value.code owner >>= fun code => k (op.code [access.get] code access.set)) c R := by
  unfold Compile.assignVariable operand AssignmentOperator.code
  rw [op.compoundOperation?_symbol]
  cases op.combines? with
  | none =>
    simp only [Option.map_none, bind_assoc, emitSet_eq]
    refine bind (hvalue.inside hm (by decide) hstop h) fun _ c1 code h1 => ?_
    exact emit h1 (access.legible_set _) fun c2 h2 => hf _ c2 (by simpa using h2)
  | some combine =>
    simp only [Option.map_some, bind_assoc, emitSet_eq, emitGet_eq haccess]
    refine emit h (access.legible_get _) fun c1 h1 => bind (hvalue.inside hm (by decide) hstop h1)
      fun _ c2 code h2 => ?_
    exact emit h2 (combine.legible_operation _) fun c3 h3 => emit h3 (access.legible_set _) fun c4 h4 =>
      hf _ c4 (by simpa using h4)

theorem assignProperty {name : Nat}
    (hvalue : Spine owner .assignment value us) (hm : us.length ≤ m) (hstop : Stops .assignment rest)
    (h : c.At owner (us ++ rest) s ps) (hf : ∀ is, MirrorsAt owner rest s (ps ++ written is) (f ()) (k is) R) :
    Mirrors (useProperty bound (.upTo m) name (some (.symbol op.symbol)) >>= f)
      (value.code owner >>= fun code => k (op.code [.dup, .getProperty name] code (.setProperty name)))
      c R := by
  show Mirrors (Compile.assignProperty (.upTo m) name (.symbol op.symbol) >>= f) _ c R
  unfold Compile.assignProperty operand AssignmentOperator.code
  rw [op.compoundOperation?_symbol]
  cases op.combines? with
  | none =>
    simp only [Option.map_none, bind_assoc]
    refine bind (hvalue.inside hm (by decide) hstop h) fun _ c1 code h1 => ?_
    exact emit h1 trivial fun c2 h2 => hf _ c2 (by simpa using h2)
  | some combine =>
    simp only [Option.map_some, bind_assoc]
    refine emit h trivial fun c1 h1 => emit h1 trivial fun c2 h2 =>
      bind (hvalue.inside hm (by decide) hstop h2) fun _ c3 code h3 => ?_
    exact emit h3 (combine.legible_operation _) fun c4 h4 => emit h4 trivial fun c5 h5 =>
      hf _ c5 (by simpa using h5)

theorem getProperty {name : Nat} {h} (hat : c.At owner ts s ps) (hnext : next ts ≠ .symbol .leftParen)
    (hf : MirrorsAt owner ts s (ps ++ [.write (.getProperty name)]) (f ()) h R) :
    Mirrors (useProperty bound g name none >>= f) h c R := by
  simp only [useProperty, bind_assoc]
  exact reject hat hnext (emit hat trivial hf)

theorem arguments {f k} (ha : Follows owner .arguments a us) (hbound : us.length ≤ bound) (hm : us.length ≤ m)
    (h : c.At owner (us ++ .symbol .rightParen :: rest) s ps)
    (hf : ∀ is count, MirrorsAt owner rest s (ps ++ written is) (f count) (k (is, count)) R) :
    Mirrors (Compile.arguments bound (.upTo m) >>= f) (Generate.counted a (a.code owner) >>= k) c R := by
  refine bind (ha hbound hm h) fun count c' r h' => ?_
  obtain ⟨rfl, h'⟩ := h'
  exact hf r.1 r.2 c' h'

theorem invokeProperty {name : Nat} (ha : Follows owner .arguments a us)
    (hbound : us.length ≤ bound) (hm : us.length ≤ m)
    (h : c.At owner (.symbol .leftParen :: (us ++ .symbol .rightParen :: rest)) s ps)
    (hf : ∀ is, MirrorsAt owner rest s (ps ++ written is) (f ()) (k is) R) :
    Mirrors (useProperty bound (.upTo m) name none >>= f)
      (Generate.invocation name (Generate.counted a (a.code owner)) >>= k) c R := by
  simp only [useProperty, Generate.invocation, bind_assoc, pure_bind]
  refine accept h fun c1 h1 => ?_
  simp only [if_true, bind_assoc]
  refine arguments ha hbound hm h1 fun is count c2 h2 => emit h2 trivial fun c3 h3 => ?_
  exact hf _ c3 (by simpa using h3)

end Mirrors

end Compile

open Compile (Mirrors MirrorsAt)

namespace Spine

variable {owner : Option String} {p : Precedence} {e l r : Expression} {ts us : List TokenKind}
  {x : String}

/-- A part of the compiler takes the tokens of an operand, or those of an operator and what belongs to it. -/
def Part {α : Type} (owner : Option String) (p : Precedence) (us : List TokenKind)
    (x : Nat → Grammar → Bool → Compile α) (a : α) (g : Generate (List Instruction)) : Prop :=
  ∀ {δ : Type} {bound m : Nat} {minimum : Precedence} {rest : List TokenKind} {c : Compiler} {s : Scopes}
    {ps : List Piece} {f : α → Compile Unit} {h : List Instruction → Generate δ} {R : Unit → Compiler → δ → Prop},
    us.length ≤ bound → us.length ≤ m → minimum ≤ p → MayFollow p rest → c.At owner (us ++ rest) s ps →
    (∀ is, MirrorsAt owner rest s (ps ++ written is) (f a) (h is) R) →
    Mirrors (x bound (.upTo m) (minimum ≤ .assignment) >>= f) (g >>= h) c R

theorem starting {kind} (hstart : Part owner p us (fun bound g => Compile.startWith bound g kind) true (e.code owner)) :
    Spine owner p e (kind :: us) := by
  refine ⟨nofun, fun {δ bound m k minimum rest c s ps h R} hbound hm _ hp _ hfollow hat hrest => ?_⟩
  simp only [length_cons] at hbound hm
  refine .start hat fun c1 h1 => hstart (by omega) (by omega) hp hfollow h1 fun is c2 h2 => ?_
  exact hrest is k c2 (Nat.le_add_right k _) h2

theorem continuing {q} {whole : Expression} {kind : TokenKind} {g}
    (he : Spine owner q e ts) (hfollow : ∀ rest, MayFollow q (kind :: rest))
    (hlevel : ∀ minimum, minimum ≤ p → minimum ≤ .call → minimum ≤ q ∧ minimum ≤ kind.precedence)
    (hcode : whole.code owner = e.code owner >>= fun is => g >>= fun js => pure (is ++ js))
    (hcontinue : Part owner p us (fun bound g => Compile.continueWith bound g kind) () g) :
    Spine owner p whole (ts ++ kind :: us) := by
  refine ⟨by simp, fun {δ bound m k minimum rest c s ps h R} hbound hm hk hp hcall hfollow' hat hrest => ?_⟩
  have hpos := length_pos_of_ne_nil he.nonempty
  simp only [length_cons, length_append] at hbound hm hk hrest
  simp only [cons_append, append_assoc] at hat
  obtain ⟨hq, hkind⟩ := hlevel minimum hp hcall
  simp only [hcode, bind_assoc, pure_bind]
  refine he.chain (by omega) (by omega) (by omega) hq hcall (hfollow _) hat fun is k' c1 hk' h1 => ?_
  obtain ⟨k', rfl⟩ : ∃ k'', k' = k'' + 1 := ⟨k' - 1, by omega⟩
  refine .operator h1 hkind fun c2 h2 => hcontinue (by omega) (by omega) hp hfollow' h2 fun js c3 h3 => ?_
  exact hrest (is ++ js) k' c3 (by omega) (by simpa using h3)

/-! ### Operands -/

theorem literal (value : Literal) : Spine owner .primary (.literal value) [value.token] := by
  refine starting fun _ _ _ _ hat hrest => ?_
  rw [Expression.code]
  cases value with
  | number n =>
    simp only [Literal.token, Compile.startWith, Compile.emitConstant, Literal.code, bind_assoc, pure_bind]
    exact .constant (k := .number n) (fun _ => Constant.noConfusion) hat fun i c1 h1 => .emit h1 trivial fun c2 h2 =>
      hrest [.constant i] c2 h2
  | text t =>
    simp only [Literal.token, Compile.startWith, Compile.emitConstant, Literal.code, bind_assoc, pure_bind]
    exact .text hat fun i c1 h1 => .emit h1 trivial fun c2 h2 => hrest [.constant i] c2 h2
  | nil | true_ | false_ =>
    simp only [Literal.token, Compile.startWith, Literal.code, bind_assoc, pure_bind]
    exact .emit hat trivial fun c1 h1 => hrest [_] c1 h1

theorem group (he : Spine owner .assignment e ts) :
    Spine owner .primary e (.symbol .leftParen :: (ts ++ [.symbol .rightParen])) := by
  refine starting fun {_ _ _ _ rest _ _ _ _ _ _} _ hm _ _ hat hrest => ?_
  simp only [length_append, length_singleton] at hm
  simp only [append_assoc, singleton_append] at hat
  simp only [Compile.startWith, Compile.grouping, Compile.operand, bind_assoc, pure_bind]
  have hstop : Stops .assignment (.symbol .rightParen :: rest) := .of_precedence rfl rfl
  refine .bind (he.inside (by omega) (by decide) hstop hat) fun _ c1 code h1 => ?_
  exact .expect h1 fun c2 h2 => hrest code c2 h2

theorem name (x : String) : Spine owner .call (.name x) [.name x] := by
  refine starting fun _ _ _ hfollow hat hrest => ?_
  simp only [Expression.code, Compile.startWith, bind_assoc, pure_bind]
  refine .name hat (fun name c1 h1 => ?_) fun access c1 haccess h1 => ?_
  · refine .noAssignment h1 hfollow.noAssignment ?_
    simp only [Compile.receiverProperty_eq, bind_assoc, pure_bind]
    refine .receiver h1 fun this c2 h2 => .getProperty h2 (hfollow.noCall (by decide)) fun c3 h3 => ?_
    exact hrest _ c3 (by simpa using h3)
  · refine .noAssignment h1 hfollow.noAssignment ?_
    simp only [Compile.useVariable, Compile.emitGet_eq haccess, pure_bind]
    exact .emit h1 (access.legible_get _) fun c2 h2 => hrest [access.get] c2 h2

theorem assign (he : Spine owner .assignment e ts) :
    Spine owner .assignment (.assign x op e) (.name x :: .symbol op.symbol :: ts) := by
  refine starting fun {_ _ _ _ _ _ _ _ _ h _} _ hm hminimum hfollow hat hrest => ?_
  have hm := Nat.le_of_succ_le hm
  have hstop : Stops .assignment _ := hfollow.stops rfl
  simp only [Expression.code, Compile.startWith, decide_eq_true hminimum, bind_assoc, pure_bind]
  refine .name hat (fun name c1 h1 => .assignment h1 fun c2 h2 => ?_)
    fun access c1 haccess h1 => .assignment h1 fun c2 h2 => ?_
  · simp only [Compile.receiverProperty_eq, bind_assoc, pure_bind]
    refine .receiver h2 fun this c3 h3 => ?_
    refine .assignProperty (k := fun is => h (this ++ is)) he hm hstop h3 fun is c4 h4 => ?_
    exact hrest (this ++ is) c4 (by simpa using h4)
  · simp only [Compile.useVariable, bind_assoc, pure_bind]
    exact .assignVariable he hm hstop haccess h2 hrest

theorem callName (ha : Follows owner .arguments a ts) : Spine owner .primary (.callName x a)
      (.name x :: .symbol .leftParen :: (ts ++ [.symbol .rightParen])) := by
  refine ⟨nofun, fun {δ bound m k minimum rest c s ps h R} hbound hm hk _ hcall _ hat hrest => ?_⟩
  simp only [length_cons, length_append, length_nil] at hbound hm hk hrest
  simp only [cons_append, append_assoc, nil_append] at hat
  refine .start hat fun c1 h1 => ?_
  simp only [Expression.code, Compile.startWith, bind_assoc, pure_bind]
  refine .name h1 (fun name c2 h2 => .noAssignment h2 rfl ?_) fun access c2 haccess h2 =>
    .noAssignment h2 rfl ?_
  · simp only [Compile.receiverProperty_eq, bind_assoc]
    refine .receiver h2 fun this c3 h3 =>
      .invokeProperty ha (by omega) (by omega) h3 fun is c4 h4 => ?_
    exact hrest _ k c4 (by omega) (by simpa using h4)
  · -- A call of a variable is compiled as an operand and an operator.
    simp only [Compile.useVariable, Compile.emitGet_eq haccess, Generate.application, bind_assoc, pure_bind]
    obtain ⟨k, rfl⟩ : ∃ k', k = k' + 1 := ⟨k - 1, by omega⟩
    refine .emit h2 (access.legible_get _) fun c3 h3 => .operator h3 hcall fun c4 h4 => ?_
    simp only [Compile.continueWith, Compile.call, bind_assoc]
    refine .arguments ha (by omega) (by omega) h4 fun is count c5 h5 => .emit h5 trivial fun c6 h6 => ?_
    exact hrest _ k c6 (by omega) (by simpa using h6)

theorem this : Spine owner .primary .this [.keyword .this] := by
  refine starting fun {_ _ _ _ _ c _ _ _ _ R} _ _ _ _ hat hrest => ?_
  simp only [Expression.code, Compile.startWith, Compile.this, bind_assoc, pure_bind]
  refine .look (.step rfl ?_)
  rw [c.scopes.outline_inObject]
  show Mirrors ((if c.scopes.inObject = true then _ else _) >>= _) _ c R
  cases c.scopes.inObject with
  | true => exact .receiver hat hrest
  | false => exact .fail rfl (Compile.mistake_errors_ne hat.reported _)

theorem superCall (ha : Follows owner .arguments a ts) : Spine owner .primary (.superCall x a)
      (.symbol .doubleColon :: .name x :: .symbol .leftParen :: (ts ++ [.symbol .rightParen])) := by
  refine starting fun {_ _ _ _ _ c _ _ _ _ R} hbound hm _ _ hat hrest => ?_
  simp only [length_cons, length_append, length_nil] at hbound hm
  simp only [cons_append, append_assoc, nil_append] at hat
  simp only [Expression.code, Compile.startWith, Compile.superCall, Generate.superCall, bind_assoc, pure_bind]
  refine .step rfl ?_
  show Mirrors ((if c.owner.isNone = true then _ else _) >>= _) _ c R
  rw [hat.owner_eq]
  cases owner with
  | none => exact .fail rfl (Compile.mistake_errors_ne hat.reported _)
  | some path =>
    simp only [Option.isNone_some, Bool.false_eq_true, if_false, Compile.nameConstant, bind_assoc,
      pure_bind]
    refine .expectName hat fun c1 h1 => .text h1 fun name c2 h2 =>
      .expect h2 fun c3 h3 => .receiver h3 fun this c4 h4 =>
      .arguments ha (by omega) (by omega) h4 fun is count c5 h5 =>
      .receiver h5 fun this' c6 h6 => .emit h6 trivial fun c7 h7 => .emit h7 trivial fun c8 h8 => ?_
    exact hrest _ c8 (by simpa using h8)

theorem lambda {xs body} (hf : Follows owner .function (xs, body) ts) :
    Spine owner .primary (.lambda xs body) (.keyword .function :: ts) := by
  refine starting fun hbound hm _ _ hat hrest => ?_
  simp only [Expression.code, Compile.startWith, bind_assoc, pure_bind]
  exact .bind (hf hbound hm hat) fun _ c1 is h1 => hrest is c1 h1

/-! ### What follows an operand -/

theorem call (he : Spine owner .primary e ts) (ha : Follows owner .arguments a us) :
    Spine owner .primary (.call e a) (ts ++ .symbol .leftParen :: (us ++ [.symbol .rightParen])) := by
  refine he.continuing (fun rest => .of_loose (by decide) rfl fun hne => absurd rfl hne)
    (fun _ hp hcall => ⟨hp, hcall⟩) (by rw [Expression.code]) fun hbound hm _ _ hat hrest => ?_
  simp only [length_append, length_singleton] at hbound hm
  simp only [append_assoc, singleton_append] at hat
  simp only [Compile.continueWith, Compile.call, Generate.application, bind_assoc, pure_bind]
  refine .arguments ha (by omega) (by omega) hat fun is count c1 h1 => .emit h1 trivial fun c2 h2 => ?_
  exact hrest _ c2 (by simpa using h2)

theorem mayFollow_arrow (us : List TokenKind) : MayFollow .call (.symbol .arrow :: us) :=
  .of_loose (by decide) rfl nofun

theorem property (he : Spine owner .call e ts) :
    Spine owner .call (.property e x) (ts ++ [.symbol .arrow, .name x]) := by
  refine he.continuing (g := do return [.getProperty (← Generate.pool (.text x))]) mayFollow_arrow
    (fun _ _ hcall => ⟨hcall, hcall⟩) (by simp [Expression.code]) fun _ _ _ hfollow hat hrest => ?_
  simp only [Compile.continueWith, Compile.arrow_eq, bind_assoc, pure_bind]
  exact .expectName hat fun c1 h1 => .text h1 fun name c2 h2 =>
    .noAssignment h2 hfollow.noAssignment (.getProperty h2 (hfollow.noCall (by decide)) fun c3 h3 => hrest _ c3 h3)

theorem invoke (he : Spine owner .call e ts) (ha : Follows owner .arguments a us) : Spine owner .primary (.invoke e x a)
      (ts ++ .symbol .arrow :: .name x :: .symbol .leftParen :: (us ++ [.symbol .rightParen])) := by
  refine he.continuing
    (g := do Generate.invocation (← Generate.pool (.text x)) (Generate.counted a (a.code owner))) mayFollow_arrow
    (fun _ _ hcall => ⟨hcall, hcall⟩) (by simp [Expression.code]) fun hbound hm _ _ hat hrest => ?_
  simp only [length_cons, length_append, length_nil] at hbound hm
  simp only [cons_append, append_assoc, nil_append] at hat
  simp only [Compile.continueWith, Compile.arrow_eq, bind_assoc]
  exact .expectName hat fun c1 h1 => .text h1 fun name c2 h2 =>
    .noAssignment h2 rfl (.invokeProperty ha (by omega) (by omega) h2 hrest)

theorem assignProperty {v} (he : Spine owner .call e ts) (hv : Spine owner .assignment v us) :
    Spine owner .assignment (.assignProperty e x op v)
      (ts ++ .symbol .arrow :: .name x :: .symbol op.symbol :: us) := by
  refine he.continuing (g := do
      let name ← Generate.pool (.text x)
      return op.code [.dup, .getProperty name] (← v.code owner) (.setProperty name)) mayFollow_arrow
    (fun _ _ hcall => ⟨hcall, hcall⟩) (by simp [Expression.code])
      fun {_ _ _ _ _ _ _ _ _ h _} _ hm hp hfollow hat hrest => ?_
  simp only [length_cons] at hm
  simp only [Compile.continueWith, Compile.arrow_eq, decide_eq_true hp, bind_assoc, pure_bind]
  exact .expectName hat fun c1 h1 => .text h1 fun name c2 h2 => .assignment h2 fun c3 h3 =>
    .assignProperty (k := h) hv (by omega) (hfollow.stops rfl) h3 hrest

/-! ### Operators -/

theorem tighter (he : Spine owner p.tighter e ts) : Spine owner p e ts where
  nonempty := he.nonempty
  chain hbound hm hk hp hcall hfollow hat hrest :=
    he.chain hbound hm hk (Nat.le_trans hp p.rank_le_rank_tighter) hcall hfollow.tighter hat hrest

theorem unary {op : UnaryOperator} (he : Spine owner .unary e ts) :
    Spine owner .unary (.unary op e) (.symbol op.symbol :: ts) := by
  refine starting fun {_ bound m _ _ _ _ _ _ _ _} _ hm _ hfollow hat hrest => ?_
  have hstart : ∀ canAssign, Compile.startWith bound (.upTo m) (.symbol op.symbol) canAssign = (do
      Compile.unary (.upTo m) op.operation
      return true) := by
    intro canAssign
    cases op <;> rfl
  simp only [hstart, Expression.code, Compile.unary, bind_assoc, pure_bind]
  refine .bind (he.inside hm (by decide) (hfollow.stops rfl) hat) fun _ c1 code h1 => ?_
  exact .emit h1 (by cases op <;> trivial) fun c2 h2 => hrest _ c2 (by simpa using h2)

theorem binary {op : BinaryOperator} (hl : Spine owner op.precedence l ts)
    (hr : Spine owner op.precedence.tighter r us) :
    Spine owner op.precedence (.binary op l r) (ts ++ .symbol op.symbol :: us) := by
  refine hl.continuing (g := do return (← r.code owner) ++ [op.operation])
    (fun rest => by cases op <;> exact .of_loose (by decide) rfl nofun)
    (fun _ hp _ => ⟨hp, by rw [op.precedence_symbol]; exact hp⟩) (by simp [Expression.code])
    fun {_ bound m _ _ _ _ _ _ _ _} _ hm _ hfollow hat hrest => ?_
  have hcontinue : ∀ canAssign, Compile.continueWith bound (.upTo m) (.symbol op.symbol) canAssign
      = Compile.binary (.upTo m) (.symbol op.symbol) := by
    intro canAssign
    cases op <;> rfl
  have htighter : op.precedence.tighter ≤ .call := by cases op <;> decide
  simp only [hcontinue, Compile.binary, op.precedence_symbol, op.binaryOperation?_symbol, bind_assoc, pure_bind]
  refine .bind (hr.inside hm htighter (hfollow.stops (Precedence.right_eq_tighter op)) hat) fun _ c1 right h1 => ?_
  exact .emit h1 (op.legible_operation _) fun c2 h2 => hrest _ c2 (by simpa using h2)

theorem and (hl : Spine owner .equality l ts) (hr : Spine owner .and r us) :
    Spine owner .and (.and l r) (ts ++ .symbol .and :: us) := by
  refine hl.continuing (fun rest => .of_loose (by decide) rfl nofun)
    (fun _ hp _ => ⟨Nat.le_trans hp (by decide), hp⟩) (by rw [Expression.code])
    fun {_ _ _ _ _ _ _ ps _ _ _} _ hm _ hfollow hat hrest => ?_
  simp only [Compile.continueWith, Compile.conjunction, Generate.conjunction, bind_assoc, pure_bind]
  refine .emitJump ⟨.inr rfl⟩ hat fun c1 h1 => .emit h1 trivial fun c2 h2 =>
    .bind (hr.inside hm (by decide) (hfollow.stops rfl) h2) fun _ c3 right h3 => ?_
  refine .patchJump ⟨.inr rfl⟩ ps (.write .pop :: written right) (by simpa using h3) (by simp)
    (by simp [Nat.add_comm]) fun c4 h4 => ?_
  exact hrest _ c4 (by simpa using h4)

theorem or (hl : Spine owner .and l ts) (hr : Spine owner .or r us) :
    Spine owner .or (.or l r) (ts ++ .symbol .or :: us) := by
  refine hl.continuing (fun rest => .of_loose (by decide) rfl nofun)
    (fun _ hp _ => ⟨Nat.le_trans hp (by decide), hp⟩) (by rw [Expression.code])
    fun {δ _ _ _ _ _ _ ps _ _ _} _ hm _ hfollow hat hrest => ?_
  simp only [Compile.continueWith, Compile.disjunction, Generate.disjunction, bind_assoc, pure_bind]
  -- The first jump goes over the second one, so it always reaches.
  have hthree : ∀ y : Generate δ, (Generate.forward 3 >>= fun _ => y) = y := fun _ => rfl
  refine .emitJump ⟨.inr rfl⟩ hat fun c1 h1 => .emitJump ⟨.inl rfl⟩ h1 fun c2 h2 => ?_
  rw [← hthree (_ >>= _)]
  refine .patchJump ⟨.inr rfl⟩ ps ([.write (.jump maxWord)])
    (by simpa using h2) (by simp) rfl fun c3 h3 => .emit h3 trivial fun c4 h4 =>
    .bind (hr.inside hm (by decide) (hfollow.stops rfl) h4) fun _ c5 right h5 => ?_
  refine .patchJump ⟨.inl rfl⟩ (ps ++ [.write (.jumpIfFalse 3)])
    (.write .pop :: written right) (by simpa using h5) (by simp [Nat.add_assoc])
    (by simp [Nat.add_comm]) fun c6 h6 => ?_
  exact hrest _ c6 (by simpa using h6)

end Spine

end Mudscript
