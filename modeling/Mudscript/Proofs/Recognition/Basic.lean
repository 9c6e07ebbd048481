import Mudscript.Proofs.Rendering.Script

/-!
# What was read

The converse of following a rendering: a part of the compiler that makes no mistake took the tokens of
some tree. `Yields x c Q` says that `Q` holds after `x`, unless `x` left a report or reached its bound.
Since neither is ever withdrawn, a sequence that does neither has parts that do neither, and the parts can
be taken one by one.

A fault of the text is reported when the compilation comes to it. What is ahead may therefore have
faults in it, and only what was taken is known to be tokens.
-/

namespace Mudscript

variable {m : Mistake} {what : String}

theorem TokenKind.eq_type_of_isType {k : TokenKind} (h : k.isType = true) : ∃ type, k = .type type := by
  cases k with
  | type type => exact ⟨type, rfl⟩
  | _ => cases h

namespace Compiler

/-- No mistake was reported, and no bound was reached. -/
structure Clean (c : Compiler) : Prop where
  errors : c.errors = #[]
  unexhausted : c.exhausted = false

/-- These tokens of the text were taken, and no mistake was made. -/
structure Past (c : Compiler) (text : List (Option TokenKind)) (ts : List TokenKind) : Prop where
  errors : c.errors = #[]
  recovering : c.recovering = false
  ahead : ∃ ks, text = ts.map some ++ ks ∧ c.Ahead ks
  proper : ∀ k, some k ∈ text → k.Proper

variable {c : Compiler} {text : List (Option TokenKind)} {ts : List TokenKind}

theorem moveTo_past {items : List Lexed} (hclean : c.errors = #[]) (hrecovering : c.recovering = false)
    (htext : text = ts.map some ++ items.map lexedKind?) (hend : some TokenKind.endOfText ∉ items.map lexedKind?)
    (hproper : ∀ k, some k ∈ text → k.Proper) (herrors : (c.moveTo items).errors = #[]) :
    (c.moveTo items).Past text ts := by
  cases items with
  | nil => exact ⟨hclean, hrecovering, ⟨[], htext, rfl, rfl⟩, hproper⟩
  | cons lexed items =>
    cases lexed with
    | error e =>
      have hreported : c.Reported := fun hc => absurd (hrecovering.symm.trans hc) nofun
      exact absurd herrors ((moveTo_keeps (c.report _) items).errors_ne (report_errors_ne hreported _))
    | ok t =>
      rw [List.map_cons, List.mem_cons, not_or] at hend
      exact ⟨hclean, hrecovering,
        ⟨_, htext, rfl, fun hkind => hend.1 (congrArg some hkind).symm, rfl, hend.2⟩, hproper⟩

namespace Past

theorem reported (h : c.Past text ts) : c.Reported := fun hrecovering => by
  rw [h.recovering] at hrecovering
  cases hrecovering

theorem text_eq (h : c.Past text ts) (hend : c.current.kind = .endOfText) : text = ts.map some := by
  obtain ⟨ks, htext, hahead⟩ := h.ahead
  cases ks with
  | nil => exact htext.trans (List.append_nil _)
  | cons k ks => exact absurd hend hahead.2.1

theorem moveTo (h : c.Past text ts) (hend : c.current.kind ≠ .endOfText) (herrors : (c.moveTo c.unread).errors = #[]) :
    c.current.kind.Proper ∧ (c.moveTo c.unread).Past text (ts ++ [c.current.kind]) := by
  obtain ⟨ks, htext, hahead⟩ := h.ahead
  cases ks with
  | nil => exact absurd hahead.1 hend
  | cons k ks =>
    obtain ⟨rfl, _, rfl, hmore⟩ := hahead
    refine ⟨h.proper _ (by simp [htext]), ?_⟩
    exact moveTo_past h.errors h.recovering (by simp [htext]) hmore h.proper herrors

end Past

end Compiler

namespace Compile

variable {α β : Type}

/-! ### Parts that take no token -/

/-- A part that takes no token: without a mistake it changes nothing but the scopes. -/
class Silent (x : Compile α) : Prop where
  changes : ∀ c : Compiler, c.recovering = false → (x c).2.errors = #[] →
    ∃ s, (x c).2 = { c with scopes := s }

namespace Silent

theorem ofScopes {x : Compile α} (h : ∀ c, (x c).2 = { c with scopes := (x c).2.scopes }) : Silent x :=
  ⟨fun c _ _ => ⟨_, h c⟩⟩

theorem ofReport {x : Compile α} (e : Compiler → CompileError) (h : ∀ c, (x c).2 = c.report (e c)) : Silent x := by
  refine ⟨fun c hrecovering herrors => absurd herrors ?_⟩
  rw [h c]
  exact Compiler.report_errors_ne (fun hc => absurd (hrecovering.symm.trans hc) nofun) _

instance (a : α) : Silent (pure a : Compile α) := .ofScopes fun _ => rfl

instance : Silent (read : Compile Compiler) := .ofScopes fun _ => rfl

instance instBind {x : Compile α} {f : α → Compile β} [Silent x] [∀ a, Silent (f a)] : Silent (x >>= f) where
  changes c hrecovering herrors := by
    have hmid : (x c).2.errors = #[] := (f _).errors_eq herrors
    obtain ⟨s, hx⟩ := changes (x := x) c hrecovering hmid
    obtain ⟨s', hf⟩ := changes (x := f (x c).1) (x c).2 (by rw [hx]; exact hrecovering) herrors
    exact ⟨s', hf.trans (by rw [hx])⟩

instance {p : Prop} [Decidable p] {x y : Compile α} [Silent x] [Silent y] :
    Silent (if p then x else y) := by
  split <;> infer_instance

end Silent

instance (m : Mistake) : Silent (mistake m) := .ofReport _ fun _ => rfl

instance (m : Mistake) : Silent (mistakeAhead m) := .ofReport _ fun _ => rfl

instance (f : Compiler → α × Scopes) : Silent (onScopes f) := .ofScopes fun _ => rfl

instance (f : Scope → Scope) : Silent (modifyScope f) := .ofScopes fun _ => rfl

instance {x : Compile α} [Silent x] (change : Scopes.Change) : Silent (x.as change) := ⟨Silent.changes (x := x)⟩

instance : Silent scope := .ofScopes fun _ => rfl

instance : Silent here := .ofScopes fun _ => rfl

instance : Silent atGlobalLevel := .ofScopes fun _ => rfl

instance (i : Instruction) : Silent (emit i) := .ofScopes fun _ => rfl

instance : Silent emitReturnNil := by
  unfold emitReturnNil
  infer_instance

theorem mistake_errors_ne_of_recovering {c : Compiler} (h : c.recovering = false) (m : Mistake) :
    (mistake m c).2.errors ≠ #[] :=
  mistake_errors_ne (fun hc => absurd (h.symm.trans hc) nofun) m

instance (k : Constant) : Silent (constant k) where
  changes c hrecovering := by
    rw [constant_apply]
    split
    · exact fun _ => ⟨_, rfl⟩
    · exact fun herrors => absurd herrors (mistake_errors_ne_of_recovering (by exact hrecovering) _)

instance (x : String) : Silent (nameConstant x) := inferInstanceAs (Silent (constant _))

instance (k : Constant) : Silent (emitConstant k) := by
  unfold emitConstant
  infer_instance

instance (jump : Nat → Instruction) : Silent (emitJump jump) := by
  unfold emitJump
  infer_instance

instance (operand : Nat) : Silent (patchJump operand) where
  changes c hrecovering := by
    rw [patchJump_apply]
    split
    · exact fun _ => ⟨_, rfl⟩
    · exact fun herrors => absurd herrors (mistake_errors_ne_of_recovering (by exact hrecovering) _)

instance (start : Nat) : Silent (emitLoop start) where
  changes c hrecovering := by
    rw [emitLoop_apply]
    split
    · exact fun _ => ⟨_, rfl⟩
    · exact fun herrors => absurd herrors (mistake_errors_ne_of_recovering hrecovering _)

instance (kind : RoutineKind) (x : String) : Silent (enterFunction kind x) := .ofScopes fun _ => rfl

instance : Silent leaveFunction := by
  unfold leaveFunction
  infer_instance

instance (x : String) : Silent (resolve x) where
  changes c hrecovering := by
    rw [resolve_apply]
    split
    · exact fun _ => ⟨_, rfl⟩
    · exact fun _ => ⟨_, rfl⟩
    · split
      · exact fun _ => ⟨_, rfl⟩
      · exact fun _ => ⟨_, rfl⟩
      · exact Silent.changes { c with scopes := _ } hrecovering

instance : Silent emitReceiver := by
  have hresult : ∀ result : Except ScopeFault Access, Silent
      (match result with
        | .ok (.local_ slot) => emit (.getLocal slot)
        | .ok (.upvalue index) => emit (.getUpvalue index)
        | .ok _ => mistake .thisOutsideObject
        | .error fault => mistake (.scope fault) : Compile Unit) := by
    intro result
    split <;> infer_instance
  unfold emitReceiver
  infer_instance

instance (access : Access) : Silent (emitGet access) := by
  cases access with
  | property name => exact inferInstanceAs (Silent (emitReceiver >>= fun _ => emit (.getProperty name)))
  | local_ slot => exact inferInstanceAs (Silent (emit (.getLocal slot)))
  | upvalue index => exact inferInstanceAs (Silent (emit (.getUpvalue index)))
  | global name => exact inferInstanceAs (Silent (emit (.getGlobal name)))

instance (access : Access) : Silent (emitSet access) := by
  rw [emitSet_eq]
  infer_instance

theorem Silent.afterScope {f : Scope → Compile α} (h : ∀ s, Silent (f s)) : Silent (scope >>= f) :=
  ⟨fun c => (h c.scopes.current).changes c⟩

instance (x : String) : Silent (declare x) := by
  refine .afterScope fun s => ?_
  split <;> infer_instance

instance : Silent define := .ofScopes fun _ => rfl

instance : Silent beginBlock := .ofScopes fun _ => rfl

instance : Silent endBlock := .ofScopes fun _ => rfl

instance (continueAt : Nat) : Silent (beginLoop continueAt) := .ofScopes fun _ => rfl

instance (depth : Int) : Silent (discardAbove depth) := .ofScopes fun _ => rfl

instance (operand : Nat) : Silent (addBreak operand) := .ofScopes fun _ => rfl

instance (operands : List Nat) : Silent (operands.forM patchJump) := by
  induction operands with
  | nil => exact inferInstanceAs (Silent (pure ()))
  | cons operand rest ih => exact inferInstanceAs (Silent (patchJump operand >>= fun _ => rest.forM patchJump))

instance : Silent endLoop := by
  refine .afterScope fun s => ?_
  split
  · infer_instance
  · rename_i l outer _
    have hforM : Array.forM patchJump l.breaks 0 l.breaks.size = l.breaks.toList.forM patchJump :=
      List.forM_toArray' _ _ rfl
    rw [hforM]
    infer_instance

/-! ### One step at a time -/

theorem clean (x : Compile α) {c : Compiler} (h : (x c).2.Clean) : c.Clean :=
  ⟨x.errors_eq h.errors, (x.leads c).exhausted h.unexhausted⟩

def Yields (x : Compile α) (c : Compiler) (Q : α → Compiler → Prop) : Prop :=
  (x c).2.Clean → Q (x c).1 (x c).2

variable {text : List (Option TokenKind)} {ts : List TokenKind}

theorem Silent.past {x : Compile α} [Silent x] {c : Compiler} (h : c.Past text ts) (hclean : (x c).2.Clean) :
    (x c).2.Past text ts ∧ (x c).2.current = c.current := by
  obtain ⟨s, hs⟩ := Silent.changes c h.recovering hclean.errors
  rw [hs]
  exact ⟨⟨h.errors, h.recovering, h.ahead, h.proper⟩, rfl⟩

namespace Yields

variable {x : Compile α} {f : α → Compile β} {c : Compiler} {Q : α → Compiler → Prop} {R : β → Compiler → Prop}

theorem mono {Q' : α → Compiler → Prop} (h : Yields x c Q) (hle : ∀ a c', Q a c' → Q' a c') : Yields x c Q' :=
  fun hclean => hle _ _ (h hclean)

theorem bind (hx : Yields x c Q) (hf : ∀ a c', Q a c' → Yields (f a) c' R) : Yields (x >>= f) c R := by
  exact fun hclean => hf _ _ (hx ((f _).clean hclean)) hclean

theorem pure {a : α} (h : Q a c) : Yields (Pure.pure a) c Q := fun _ => h

theorem last (h : Yields (x >>= Pure.pure) c Q) : Yields x c Q := h

theorem silent [Silent x] (h : c.Past text ts)
    (hf : ∀ a c', c'.Past text ts → Yields (f a) c' R) : Yields (x >>= f) c R :=
  bind (fun hclean => (Silent.past h hclean).1) hf

theorem scope {f} (hf : Yields (f c.scopes.current) c R) : Yields (Compile.scope >>= f) c R := hf

theorem never (hx : ¬ (x c).2.Clean) : Yields (x >>= f) c R := fun hclean => absurd ((f _).clean hclean) hx

theorem exhaust {f} : Yields (Compile.exhaust >>= f) c R :=
  never fun hclean => nomatch hclean.unexhausted

theorem mistake {f} (h : c.Reported) : Yields (Compile.mistake m >>= f) c R :=
  never fun hclean => mistake_errors_ne h m hclean.errors

theorem mistakeAhead {f} (h : c.Reported) : Yields (Compile.mistakeAhead m >>= f) c R :=
  never fun hclean => Compiler.report_errors_ne h _ hclean.errors

/-! ### Tokens -/

theorem current {f} (hf : Yields (f c.current.kind) c R) : Yields (Compile.current >>= f) c R := hf

theorem check {f kind} (hyes : c.current.kind = kind → Yields (f true) c R)
    (hno : c.current.kind ≠ kind → Yields (f false) c R) : Yields (Compile.check kind >>= f) c R := by
  show Yields (f (decide (c.current.kind = kind))) c R
  by_cases hkind : c.current.kind = kind
  · rw [decide_eq_true hkind]
    exact hyes hkind
  · rw [decide_eq_false hkind]
    exact hno hkind

section

variable (h : c.Past text ts)

include h

theorem advance {f kind} (hkind : c.current.kind = kind)
    (hend : kind ≠ .endOfText) (hf : ∀ c', c'.Past text (ts ++ [kind]) → Yields (f ()) c' R) :
    Yields (Compile.advance >>= f) c R := by
  subst hkind
  exact bind (fun hclean => (h.moveTo hend hclean.errors).2) fun _ => hf

theorem take {f} (hend : ∀ c', c'.Reported → Yields (f .endOfText) c' R)
    (hf : ∀ kind c', kind.Proper → c'.Past text (ts ++ [kind]) → Yields (f kind) c' R) :
    Yields (Compile.advance >>= fun _ => previous >>= f) c R := by
  refine bind (Q := fun _ c' => c'.previous.kind = .endOfText ∧ c'.Reported ∨
    c'.previous.kind.Proper ∧ c'.Past text (ts ++ [c'.previous.kind])) (fun hclean => ?_) fun _ c' h' => ?_
  · have hprevious : (c.moveTo c.unread).previous = c.current := Compiler.moveTo_previous c c.unread
    show (c.moveTo c.unread).previous.kind = _ ∧ _ ∨ _
    by_cases hkind : c.current.kind = .endOfText
    · exact .inl ⟨hprevious ▸ hkind, (Compiler.moveTo_keeps c c.unread).reported h.reported⟩
    · exact .inr (hprevious ▸ h.moveTo hkind hclean.errors)
  · obtain ⟨hkind, hreported⟩ | ⟨hproper, hpast⟩ := h'
    · have hnext := hend c' hreported
      rw [← hkind] at hnext
      exact hnext
    · exact hf _ c' hproper hpast

theorem accept {f kind} (hend : kind ≠ .endOfText)
    (htaken : c.current.kind = kind → ∀ c', c'.Past text (ts ++ [kind]) → Yields (f true) c' R)
    (hleft : c.current.kind ≠ kind → Yields (f false) c R) : Yields (Compile.accept kind >>= f) c R := by
  unfold Compile.accept
  simp only [bind_assoc]
  refine check (fun hkind => ?_) fun hkind => ?_
  · simp only [if_true, bind_assoc, pure_bind]
    exact advance h hkind hend (htaken hkind)
  · rw [if_neg nofun, pure_bind]
    exact hleft hkind

theorem expect {f kind} (hend : kind ≠ .endOfText) (hf : ∀ c', c'.Past text (ts ++ [kind]) → Yields (f ()) c' R) :
    Yields (Compile.expect kind what >>= f) c R := by
  unfold Compile.expect
  simp only [bind_assoc]
  refine check (fun hkind => ?_) fun hkind => ?_
  · rw [if_pos rfl]
    exact advance h hkind hend hf
  · rw [if_neg nofun]
    exact mistakeAhead h.reported

theorem expectName {f} (hf : ∀ x c', IsName x → c'.Past text (ts ++ [.name x]) → Yields (f x) c' R) :
    Yields (Compile.expectName what >>= f) c R := by
  unfold Compile.expectName
  simp only [bind_assoc]
  refine current ?_
  split
  · rename_i x hkind
    simp only [bind_assoc, pure_bind]
    refine bind (Q := fun _ c' => IsName x ∧ c'.Past text (ts ++ [.name x])) (fun hclean => ?_)
      fun _ c' h' => hf x c' h'.1 h'.2
    have hname := h.moveTo (by simp [hkind]) hclean.errors
    rw [hkind] at hname
    exact hname
  · simp only [bind_assoc, pure_bind]
    exact mistakeAhead h.reported

theorem assignment {f} {canAssign : Bool}
    (htaken : ∀ (op : AssignmentOperator) c', canAssign = true → c'.Past text (ts ++ [.symbol op.symbol]) →
      Yields (f (some (.symbol op.symbol))) c' R)
    (hleft : (canAssign = true → c.current.kind.isAssignment = false) → Yields (f none) c R) :
    Yields (assignment? canAssign >>= f) c R := by
  unfold assignment?
  simp only [bind_assoc]
  refine current ?_
  split
  · rename_i hassignment
    rw [Bool.and_eq_true] at hassignment
    obtain ⟨op, hop⟩ := AssignmentOperator.eq_symbol_of_isAssignment hassignment.2
    simp only [bind_assoc, pure_bind]
    rw [hop]
    exact advance h hop nofun fun c' h' => htaken op c' hassignment.1 h'
  · rename_i hassignment
    rw [pure_bind]
    refine hleft fun hcan => ?_
    rwa [hcan, Bool.true_and, Bool.not_eq_true] at hassignment

end

end Yields

end Compile

/-! ### Trees -/

/-- The tokens of a tree were taken, and `P` holds of the tree and of the token ahead. -/
def TookWith (f : Form) (P : f.Tree → TokenKind → Prop) (text : List (Option TokenKind)) (ts : List TokenKind)
    (c : Compiler) : Prop :=
  ∃ t us, Derives true f t us ∧ c.Past text (ts ++ us) ∧ P t c.current.kind

def Took (f : Form) : List (Option TokenKind) → List TokenKind → Compiler → Prop := TookWith f fun _ _ => True

def TookUpTo (kind : TokenKind) (f : Form) (text : List (Option TokenKind)) (ts : List TokenKind) (c : Compiler) :
    Prop :=
  ∃ t us, Derives true f t us ∧ c.Past text (ts ++ us ++ [kind])

def TookExpression (p : Precedence) : List (Option TokenKind) → List TokenKind → Compiler → Prop :=
  TookWith (.expression p) fun _ k => k.precedence.rank < p.rank

def TookStatement : List (Option TokenKind) → List TokenKind → Compiler → Prop :=
  TookWith .statement fun t k => t.endsOpen = true → k ≠ .keyword .else_

section

open Compile

variable {α β γ : Type} {f : Form} {P : f.Tree → TokenKind → Prop} {text : List (Option TokenKind)}
  {ts : List TokenKind} {c : Compiler} {x : Compile α} {y : Compile β}

theorem TookWith.silent [Silent x] {k} {R : β → Compiler → Prop} (h : TookWith f P text ts c)
    (hk : ∀ a c', TookWith f P text ts c' → Yields (k a) c' R) : Yields (x >>= k) c R := by
  obtain ⟨t, us, ht, hpast, hP⟩ := h
  refine .bind (fun hclean => ?_) hk
  have h' := Silent.past hpast hclean
  exact ⟨t, us, ht, h'.1, h'.2 ▸ hP⟩

theorem Compile.Yields.took [Silent y] (h : Yields x c fun _ => TookWith f P text ts) :
    Yields (x >>= fun _ => y) c fun _ => TookWith f P text ts :=
  .bind h fun _ _ h' => .last (h'.silent fun _ _ h'' => .pure h'')

theorem Compile.Yields.closed {kind} {k} {R : β → Compiler → Prop}
    (hx : Yields x c fun _ => TookWith f P text ts) (hend : kind ≠ .endOfText)
    (hk : ∀ t us c', Derives true f t us → c'.Past text (ts ++ us ++ [kind]) → Yields (k ()) c' R) :
    Yields (x >>= fun _ => Compile.expect kind what >>= k) c R :=
  .bind hx fun _ _ ⟨t, us, ht, h, _⟩ => .expect h hend fun c' h' => hk t us c' ht h'

end

structure Reads (g : Grammar) : Prop where
  expression : ∀ {c text ts p}, c.Past text ts → .assignment ≤ p → p ≤ .unary →
    Compile.Yields (g (.expression p)) c fun _ => TookExpression p text ts
  statement : ∀ {c text ts}, c.Past text ts → Compile.Yields (g .statement) c fun _ => TookStatement text ts
  declaration : ∀ {c text ts}, c.Past text ts → Compile.Yields (g .declaration) c fun _ => Took .declaration text ts

end Mudscript
