import Mudscript.Proofs.Lines
import Mudscript.Proofs.Scanning
import Mudscript.Proofs.Unwinding

/-!
# Reading in order

Whether or not a mistake is made, a compilation reaches none of its bounds, and its reports are in the order
of their lines. A mistake at the token taken last would come too late when something is on record at the token
ahead. Inside a construct that cannot be, unless the compilation is recovering. Between two constructs it can,
so a part `x` of the compiler is said to lead from one of these two stages to one of them: `Orders p q n x`.

The number `n` is what makes the bounded grammar as good as an unlimited one. It bounds how many tokens are
ahead: a construct takes a token before it turns to the grammar one level below, and a repetition takes one
each time.
-/

namespace Mudscript

variable {settled : Bool} {e : CompileError} {k : Constant} {bound : Nat}

/-- The scanner makes neither an empty name nor a name out of a reserved word. -/
def TokenKind.Proper : TokenKind → Prop
  | .name x => IsName x
  | _ => True

namespace Compiler

variable {c c' : Compiler}

/-! ### Reports -/

@[simp] theorem report_current (c : Compiler) (e : CompileError) : (c.report e).current = c.current := by
  unfold report
  split <;> rfl

theorem report_recovering (c : Compiler) (e : CompileError) : (c.report e).recovering = true := by
  unfold report
  split
  · assumption
  · rfl

/-! ### Moving on -/

theorem moveTo_previous (c : Compiler) (items : List Lexed) : (c.moveTo items).previous = c.current := by
  fun_induction moveTo c items with
  | case1 c => rfl
  | case2 c t unread => rfl
  | case3 c e unread ih => rw [ih, report_current]

theorem moveTo_ahead_lt (h : c.current.kind ≠ .endOfText) : (c.moveTo c.unread).ahead < c.ahead := by
  have hle := moveTo_ahead_le c c.unread
  have hahead : c.ahead = c.unread.length + 1 := by rw [ahead, if_neg h]
  omega

/-! ### The order of the reports -/

/-- No bound was reached, the tokens ahead are in the order of their lines, and so are the reports, none
of which is behind the token ahead, and the lines of what is written, none of which is behind the token taken
last. When the stage is settled, there is also no report behind that token, or the compilation is recovering. -/
structure Orderly (settled : Bool) (c : Compiler) : Prop where
  unexhausted : c.exhausted = false
  lines : LinesFrom c.current.line c.endLine c.unread
  previous_le : c.previous.line ≤ c.current.line
  sorted : c.errors.toList.Pairwise (·.line ≤ ·.line)
  errors_le : ∀ e ∈ c.errors, e.line ≤ c.current.line
  settled : settled = true → c.recovering = true ∨ ∀ e ∈ c.errors, e.line ≤ c.previous.line
  written : c.scopes.AscendTo c.previous.line

theorem Orderly.relax (h : c.Orderly true) : c.Orderly settled :=
  { h with settled := fun _ => h.settled rfl }

theorem Orderly.unsettled (h : c.Orderly settled) : c.Orderly false :=
  { h with settled := nofun }

theorem Orderly.withScopes {s : Scopes} (h : c.Orderly settled) (hs : s.AscendTo c.previous.line) :
    { c with scopes := s }.Orderly settled :=
  ⟨h.unexhausted, h.lines, h.previous_le, h.sorted, h.errors_le, h.settled, hs⟩

theorem sorted_report (h : c.errors.toList.Pairwise (·.line ≤ ·.line))
    (hle : c.recovering = false → ∀ e' ∈ c.errors, e'.line ≤ e.line) :
    (c.report e).errors.toList.Pairwise (·.line ≤ ·.line) ∧
      ∀ e' ∈ (c.report e).errors, e' ∈ c.errors ∨ e' = e := by
  unfold report
  split
  · exact ⟨h, fun e' he' => .inl he'⟩
  · rename_i hrecovering
    refine ⟨?_, fun e' he' => Array.mem_push.mp he'⟩
    rw [Array.toList_push, List.pairwise_append]
    refine ⟨h, List.pairwise_singleton _ _, fun e' he' e'' he'' => ?_⟩
    rw [List.mem_singleton.mp he'']
    exact hle (Bool.eq_false_iff.mpr hrecovering) e' (Array.mem_toList_iff.mp he')

theorem Orderly.report (h : c.Orderly settled)
    (hle : c.recovering = false → ∀ e' ∈ c.errors, e'.line ≤ e.line) (hcurrent : e.line ≤ c.current.line) :
    (c.report e).Orderly true := by
  obtain ⟨hsorted, hmem⟩ := sorted_report h.sorted hle
  have herrors : ∀ e' ∈ (c.report e).errors, e'.line ≤ c.current.line := by
    intro e' he'
    rcases hmem e' he' with he' | rfl
    · exact h.errors_le e' he'
    · exact hcurrent
  have hkept : (c.report e).exhausted = false ∧ LinesFrom c.current.line (c.report e).endLine (c.report e).unread ∧
      (c.report e).previous.line ≤ c.current.line ∧ (c.report e).scopes.AscendTo (c.report e).previous.line := by
    unfold Compiler.report
    split <;> exact ⟨h.unexhausted, h.lines, h.previous_le, h.written⟩
  rw [← report_current c e] at hkept herrors
  obtain ⟨hunexhausted, hlines, hprevious, hwritten⟩ := hkept
  exact ⟨hunexhausted, hlines, hprevious, hsorted, herrors, fun _ => .inl (report_recovering c e), hwritten⟩

theorem moveTo_orderly {line : Nat} {items} (hexhausted : c.exhausted = false)
    (hlines : LinesFrom line c.endLine items) (hcurrent : c.current.line ≤ line)
    (hsorted : c.errors.toList.Pairwise (·.line ≤ ·.line)) (hle : ∀ e ∈ c.errors, e.line ≤ line)
    (hsettled : c.recovering = true ∨ ∀ e ∈ c.errors, e.line ≤ c.current.line)
    (hwritten : c.scopes.AscendTo c.current.line) : (c.moveTo items).Orderly true := by
  induction items generalizing c line with
  | nil =>
    have hend : line ≤ c.endLine := hlines
    exact ⟨hexhausted, Nat.le_refl _, Nat.le_trans hcurrent hend, hsorted,
      fun e he => Nat.le_trans (hle e he) hend, fun _ => hsettled, hwritten⟩
  | cons lexed items ih =>
    obtain ⟨hline, hlines⟩ := hlines
    have hle' : ∀ e ∈ c.errors, e.line ≤ lexedLine lexed := fun e he => Nat.le_trans (hle e he) hline
    cases lexed with
    | ok t => exact ⟨hexhausted, hlines, Nat.le_trans hcurrent hline, hsorted, hle', fun _ => hsettled, hwritten⟩
    | error fault =>
      obtain ⟨hsorted, hmem⟩ := sorted_report (e := ⟨fault.line, .nowhere, .lexical fault.fault⟩) hsorted fun _ => hle'
      refine @ih _ fault.line ?_ ?_ ?_ hsorted (fun e he => ?_) (.inl ?_) ?_
      · unfold Compiler.report
        split <;> exact hexhausted
      · unfold Compiler.report
        split <;> exact hlines
      · rw [report_current]
        exact Nat.le_trans hcurrent hline
      · rcases hmem e he with he | rfl
        · exact hle' e he
        · exact Nat.le_refl _
      · exact report_recovering c _
      · rw [report_scopes, report_current]
        exact hwritten

theorem Orderly.moveTo (h : c.Orderly settled) : (c.moveTo c.unread).Orderly true :=
  moveTo_orderly h.unexhausted h.lines (Nat.le_refl _) h.sorted h.errors_le (.inr h.errors_le)
    (h.written.mono h.previous_le)

end Compiler

namespace Compile

open Scopes (Change Tracks)

variable {α β : Type}

theorem bind_apply (x : Compile α) (f : α → Compile β) (c : Compiler) : (x >>= f) c = f (x c).1 (x c).2 := rfl

theorem errors_ne (x : Compile α) {c : Compiler} (h : c.errors ≠ #[]) : (x c).2.errors ≠ #[] :=
  (x.leads c).errors_ne h

theorem errors_eq (x : Compile α) {c : Compiler} (h : (x c).2.errors = #[]) : c.errors = #[] :=
  Decidable.byContradiction fun hne => x.errors_ne hne h

theorem noticed_eq (x : Compile α) {c : Compiler} (h : (x c).2.noticed = #[]) : c.noticed = #[] := by
  rw [Array.eq_empty_iff_forall_not_mem] at h ⊢
  exact fun e he => h e ((x.leads c).noticed e he)

/-- A stage of a compilation: whether it is settled, and of which sort the variables of the functions are that are being
written. -/
structure Stage where
  settled : Bool
  nests : List Nest → Prop

/-- From here, a part of the compiler leads from one stage to another. The variables are as they should be unless
something is wrong. -/
def OrdersAt (c : Compiler) (p q : Stage) (x : Compile α) : Prop :=
  c.Orderly p.settled → (x c).2.Orderly q.settled ∧ ∀ ns, (x c).2.noticed = #[] → c.scopes.Matched ns → p.nests ns →
    ∃ ns', Tracks ns (x.steps c).value ns' ∧ q.nests ns'

/-- A part of the compiler leads from one stage to another, provided that fewer than `n` tokens are ahead. -/
def Orders (p q : Stage) (n : Nat) (x : Compile α) : Prop :=
  ∀ c : Compiler, c.ahead < n → OrdersAt c p q x

variable {n : Nat} {p q r : Stage} {b b' : Bool} {P Q : List Nest → Prop} {c : Compiler} {x y : Compile α}
  {f : α → Compile β}

theorem OrdersAt.bind (hx : OrdersAt c p q x) (hf : OrdersAt (x c).2 q r (f (x c).1)) : OrdersAt c p r (x >>= f) := by
  intro hp
  obtain ⟨hq, htracked⟩ := hx hp
  obtain ⟨hr, htracked'⟩ := hf hq
  refine ⟨hr, fun ns hnoticed hns hnests => ?_⟩
  obtain ⟨ns', htracks, hnests'⟩ := htracked ns ((f _).noticed_eq hnoticed) hns hnests
  obtain ⟨ns'', htracks', hnests''⟩ := htracked' ns' hnoticed (htracks.nested (x.joined c) hns) hnests'
  refine ⟨ns'', ?_, hnests''⟩
  rw [show ((x >>= f).steps c).value = _ from Ghost.value_append _ _]
  exact htracks.append htracks'

namespace Orders

theorem weaken {m : Nat} (h : Orders p q m x) (hle : n ≤ m) : Orders p q n x :=
  fun c hc => h c (Nat.lt_of_lt_of_le hc hle)

theorem relax (h : Orders p ⟨true, Q⟩ n x) : Orders p ⟨b, Q⟩ n x :=
  fun c hc hp => (h c hc hp).imp_left Compiler.Orderly.relax

theorem anywhere (h : Orders ⟨false, P⟩ q n x) : Orders ⟨b, P⟩ q n x := fun c hc hp => h c hc hp.unsettled

theorem bind (hx : Orders p q n x) (hf : ∀ a, Orders q r n (f a)) : Orders p r n (x >>= f) :=
  fun c hc => (hx c hc).bind (hf _ _ (Nat.lt_of_le_of_lt (x.leads c).ahead_le hc))

theorem ite {C : Prop} [Decidable C] (hx : Orders p q n x) (hy : Orders p q n y) :
    Orders p q n (if C then x else y) := by
  split <;> assumption

theorem apart (hsteps : ∀ c, (x.steps c).value = []) (h : ∀ c : Compiler, c.Orderly b → (x c).2.Orderly b') :
    Orders ⟨b, P⟩ ⟨b', P⟩ n x :=
  fun c _ hp => ⟨h c hp, fun ns _ _ hnests => ⟨ns, hsteps c ▸ .nil, hnests⟩⟩

end Orders

class Looks (x : Compile α) : Prop where
  same : ∀ c, (x c).2 = c
  steps : ∀ c, (x.steps c).value = []

instance (a : α) : Looks (pure a : Compile α) := ⟨fun _ => rfl, fun _ => Ghost.value_of _⟩

instance : Looks (read : Compile Compiler) := ⟨fun _ => rfl, fun _ => Ghost.value_of _⟩

instance [Looks x] [∀ a, Looks (f a)] : Looks (x >>= f) where
  same c := by rw [bind_apply, Looks.same, Looks.same]
  steps c := by
    rw [show ((x >>= f).steps c).value = _ from Ghost.value_append _ _, Looks.steps, Looks.steps]
    rfl

instance : Looks current := by unfold current; infer_instance

instance : Looks previous := by unfold previous; infer_instance

instance (kind : TokenKind) : Looks (check kind) := by unfold check; infer_instance

instance : Looks atBoundary := by unfold atBoundary; infer_instance

instance : Looks scope := by unfold scope; infer_instance

instance : Looks here := by unfold here; infer_instance

instance : Looks atBlockEnd := by unfold atBlockEnd; infer_instance

theorem Looks.orders [Looks x] : Orders p p n x := .apart Looks.steps fun c h => (Looks.same (x := x) c).symm ▸ h

theorem OrdersAt.looking [Looks x] (hf : OrdersAt c p q (f (x c).1)) : OrdersAt c p q (x >>= f) :=
  OrdersAt.bind (Looks.orders c (Nat.lt_succ_self _)) ((Looks.same (x := x) c).symm ▸ hf)

theorem Orders.looking [Looks x] (hf : ∀ a, Orders p q n (f a)) : Orders p q n (x >>= f) := Looks.orders.bind hf

/-- A part that leads from the settled stage to itself and leaves all variables as they are. -/
class Steady (n : Nat) (x : Compile α) : Prop where
  orders : ∀ P, Orders ⟨true, P⟩ ⟨true, P⟩ n x

/-- Where variables are declared: inside of these blocks of a function, which is inside of these functions. -/
structure Site where
  kind : RoutineKind
  blocks : List (List String)
  outer : List Nest

namespace Site

/-- Outside of blocks only scripts declare variables, and these are global. -/
def Fit (w : Site) : Prop := w.blocks = [] → w.kind = .script

def Around (w : Site) (ns : List Nest) : Prop := ns = ⟨w.kind, w.blocks, none⟩ :: w.outer

/-- There is another block inside, in which anything may be declared. -/
def Inside (w : Site) (ns : List Nest) : Prop := ∃ b, ns = ⟨w.kind, b :: w.blocks, none⟩ :: w.outer

/-- So there is, and a variable in it is declared that cannot be used yet. -/
def Declaring (w : Site) (name : String) (ns : List Nest) : Prop :=
  ∃ b, ns = ⟨w.kind, b :: w.blocks, some name⟩ :: w.outer

end Site

/-- A part that adds at most to the variables of the innermost block. -/
class Growing (n : Nat) (x : Compile α) : Prop where
  orders : ∀ {w : Site}, w.Fit → Orders ⟨true, w.Inside⟩ ⟨true, w.Inside⟩ n x

instance (priority := low) [Steady n x] : Growing n x := ⟨fun _ => Steady.orders _⟩

instance (priority := low) [Looks x] : Steady n x := ⟨fun _ => Looks.orders⟩

theorem Steady.bind [Steady n x] (hf : ∀ a, Steady n (f a)) : Steady n (x >>= f) :=
  ⟨fun P => (Steady.orders P).bind fun a => (hf a).orders P⟩

instance [Steady n x] [∀ a, Steady n (f a)] : Steady n (x >>= f) := .bind inferInstance

theorem Growing.bind [Growing n x] (hf : ∀ a, Growing n (f a)) : Growing n (x >>= f) :=
  ⟨fun h => (Growing.orders h).bind fun a => (hf a).orders h⟩

instance [Growing n x] [∀ a, Growing n (f a)] : Growing n (x >>= f) := .bind inferInstance

instance {C : Prop} [Decidable C] [Steady n x] [Steady n y] : Steady n (if C then x else y) := by
  split <;> infer_instance

instance {C : Prop} [Decidable C] [Growing n x] [Growing n y] : Growing n (if C then x else y) := by
  split <;> infer_instance

/-! ### Tokens and mistakes -/

theorem advance_orders : Orders ⟨b, P⟩ ⟨true, P⟩ n advance := .apart (fun _ => Ghost.value_of _) fun _ h => h.moveTo

instance : Steady n advance := ⟨fun _ => advance_orders⟩

theorem accept_apply (kind : TokenKind) (c : Compiler) :
    accept kind c = if c.current.kind = kind then (true, c.moveTo c.unread) else (false, c) := by
  show (if decide (c.current.kind = kind) = true then _ else _ : Compile Bool) c = _
  by_cases h : c.current.kind = kind <;> simp [h] <;> rfl

instance (kind : TokenKind) : Steady n (accept kind) := by unfold accept; infer_instance

theorem Orders.accepting {kind : TokenKind} (hx : Orders ⟨true, P⟩ q n x) (hy : Orders ⟨b, P⟩ q n y) :
    Orders ⟨b, P⟩ q n (do if ← accept kind then x else y) := by
  rw [accept, bind_assoc]
  refine .looking fun ahead => ?_
  cases ahead with
  | true => simpa using advance_orders.bind fun _ => hx
  | false => simpa using hy

theorem mistake_orders (m : Mistake) : Orders ⟨true, P⟩ ⟨true, P⟩ n (mistake m) :=
  .apart (fun _ => Ghost.value_of _) fun _ h =>
    h.report (fun hrecovering => (h.settled rfl).resolve_left (by simp [hrecovering])) h.previous_le

instance (m : Mistake) : Steady n (mistake m) := ⟨fun _ => mistake_orders m⟩

theorem mistakeAhead_orders (m : Mistake) : Orders ⟨b, P⟩ ⟨true, P⟩ n (mistakeAhead m) :=
  .apart (fun _ => Ghost.value_of _) fun _ h => h.report (fun _ => h.errors_le) (Nat.le_refl _)

instance (m : Mistake) : Steady n (mistakeAhead m) := ⟨fun _ => mistakeAhead_orders m⟩

theorem expect_orders (kind : TokenKind) (what : String) : Orders ⟨b, P⟩ ⟨true, P⟩ n (expect kind what) :=
  .looking fun _ => .ite advance_orders (mistakeAhead_orders _)

instance (kind : TokenKind) (what : String) : Steady n (expect kind what) := ⟨fun _ => expect_orders kind what⟩

theorem Orders.advancing (hx : Orders ⟨true, P⟩ q n x) (hc : c.ahead < n + 1) (hkind : c.current.kind ≠ .endOfText) :
    OrdersAt c ⟨b, P⟩ q (do advance; x) := by
  have hlt := Compiler.moveTo_ahead_lt hkind
  exact (advance_orders c hc).bind (hx (c.moveTo c.unread) (by omega))

theorem Orders.taking {f : TokenKind → Compile α} (hf : ∀ kind, Orders ⟨true, P⟩ q n (f kind))
    (hend : Orders ⟨true, P⟩ q (n + 1) (f .endOfText)) : Orders ⟨b, P⟩ q (n + 1) (do advance; f (← previous)) := by
  intro c hc
  refine (advance_orders c hc).bind (.looking ?_)
  have hprevious : (previous (c.moveTo c.unread)).1 = c.current.kind := congrArg Token.kind (c.moveTo_previous c.unread)
  show OrdersAt (c.moveTo c.unread) _ _ (f (previous (c.moveTo c.unread)).1)
  rw [hprevious]
  by_cases hkind : c.current.kind = .endOfText
  · rw [hkind]
    exact hend _ (Nat.lt_of_le_of_lt c.moveTo_leads.ahead_le hc)
  · have hlt := Compiler.moveTo_ahead_lt hkind
    exact hf _ _ (by omega)

instance (what : String) : Steady n (expectName what) := .bind fun kind => by split <;> infer_instance

/-! ### Repetition -/

/-- A part that answers `true` only if it took a token. -/
def Takes (n : Nat) (x : Compile Bool) : Prop :=
  ∀ c : Compiler, c.ahead < n → (x c).1 = true → (x c).2.ahead < c.ahead

theorem repeatUpTo_orders {body} (hbody : Orders p p n body) (htakes : Takes n body)
    (hbound : n ≤ bound) : Orders p p n (repeatUpTo body bound) := by
  induction bound generalizing n with
  | zero => exact fun c hc => absurd (Nat.lt_of_lt_of_le hc hbound) (Nat.not_lt_zero _)
  | succ bound ih =>
    intro c hc
    refine (hbody c hc).bind ?_
    split
    · rename_i hagain
      have hlt := htakes c hc hagain
      exact ih (hbody.weaken (Nat.sub_le n 1)) (fun c hc => htakes c (by omega)) (by omega) (body c).2 (by omega)
    · exact Looks.orders _ (Nat.lt_succ_self _)

theorem skip_orders : Orders p p n skip :=
  .looking fun _ => .ite Looks.orders (advance_orders.bind fun _ => Looks.orders).relax

theorem skip_takes : Takes n skip := by
  intro c _ hskip
  have happly : skip c = if (atBoundary c).1 then (false, c) else (true, c.moveTo c.unread) := by
    show (if (atBoundary c).1 = true then _ else _ : Compile Bool) c = _
    split <;> rfl
  rw [happly] at hskip ⊢
  split at hskip
  · cases hskip
  · rename_i hboundary
    rw [if_neg hboundary]
    refine Compiler.moveTo_ahead_lt fun hend => hboundary ?_
    show (decide (c.current.kind = .endOfText) || _ || _) = true
    rw [hend]
    rfl

theorem resume_apply (bound : Nat) (c : Compiler) : resume bound c
      = if c.recovering then repeatUpTo skip bound { c with recovering := false } else ((), c) := by
  show (if c.recovering then _ else _ : Compile Unit) c = _
  cases c.recovering <;> rfl

theorem resume_orders (hbound : n ≤ bound) : Orders ⟨b, P⟩ ⟨false, P⟩ n (resume bound) := by
  have hsettle : Orders ⟨b, P⟩ ⟨false, P⟩ n settle := .apart (fun _ => Ghost.value_of _) fun _ h =>
    ⟨h.unexhausted, h.lines, h.previous_le, h.sorted, h.errors_le, nofun, h.written⟩
  exact .looking fun _ => .ite (hsettle.bind fun _ => repeatUpTo_orders skip_orders skip_takes hbound)
    fun c hc hp => Looks.orders c hc hp.unsettled

/-! ### Writing -/

theorem OrdersAt.step {act : Compiler → α × Scopes} {change : Change}
    (hwritten : c.scopes.AscendTo c.previous.line → (act c).2.AscendTo c.previous.line)
    (hnext : ∀ ns, c.scopes.Matched ns → P ns →
      change.Enacts c.scopes (act c).2 ∧ ∃ ns', change.Next ns ns' ∧ Q ns') :
    OrdersAt c ⟨b, P⟩ ⟨b, Q⟩ ((onScopes act).as change) := by
  refine fun hp => ⟨hp.withScopes (hwritten hp.written), fun ns _ hns hP => ?_⟩
  obtain ⟨henacts, ns', hnext, hQ⟩ := hnext ns hns hP
  refine ⟨ns', ?_, hQ⟩
  rw [show (((onScopes act).as change).steps c).value = _ from Ghost.value_of _]
  exact .cons henacts hnext .nil

theorem Orders.write {act : Compiler → α × Scopes}
    (hwritten : ∀ c, c.scopes.AscendTo c.previous.line → (act c).2.AscendTo c.previous.line)
    (henacts : ∀ c, Change.write.Enacts c.scopes (act c).2) : Orders p p n (onScopes act) :=
  fun c _ => OrdersAt.step (hwritten c) fun _ _ hP => ⟨henacts c, _, .write, hP⟩

theorem emit_orders (i : Instruction) : Orders p p n (emit i) :=
  .write (fun _ h => ⟨h.current.emit i, h.enclosing⟩) fun _ => ⟨_, _, _, rfl⟩

instance (i : Instruction) : Steady n (emit i) := ⟨fun _ => emit_orders i⟩

instance : Steady n emitReturnNil := by unfold emitReturnNil; infer_instance

theorem Steady.modifyScope {f} (h : ∀ s, f s = { s with loops := (f s).loops, arity := (f s).arity }) :
    Steady n (modifyScope f) := by
  refine ⟨fun P => .write (fun c hc => ⟨?_, hc.enclosing⟩)
    fun c => ⟨_, _, _, congrArg (Scopes.mk · _) (h c.scopes.current)⟩⟩
  rw [show (f c.scopes.current).draft = _ from congrArg Scope.draft (h c.scopes.current)]
  exact hc.current

theorem Steady.onDraft {f : Draft → α × Draft} (hf : ∀ {d line}, Draft.AscendsTo line d → (f d).2.AscendsTo line) :
    Steady n (onDraft f) :=
  ⟨fun _ => .write (fun _ h => ⟨hf h.current, h.enclosing⟩) fun _ => ⟨_, _, _, rfl⟩⟩

theorem Steady.constant (hk : ∀ q, k = .routine q → q.Ascends) : Steady n (constant k) := by
  have hdraft : Steady n (Compile.onDraft (·.addConstant k)) := .onDraft fun h => h.addConstant hk
  exact .bind fun result => by split <;> infer_instance

theorem Steady.emitConstant (hk : ∀ q, k ≠ .routine q) : Steady n (emitConstant k) := by
  have hconstant : Steady n (Compile.constant k) := .constant fun q hq => absurd hq (hk q)
  unfold Compile.emitConstant
  infer_instance

instance (name : String) : Steady n (nameConstant name) := .constant (k := .text name) nofun

instance (s : String) : Steady n (emitConstant (.text s)) := .emitConstant nofun

instance (x : Number) : Steady n (emitConstant (.number x)) := .emitConstant nofun

instance (operand : Nat) : Steady n (patchJump operand) := by
  have hdraft : Steady n (onDraft (·.patchJump operand)) := .onDraft fun h => h.patchJump operand
  exact .bind fun result => by split <;> infer_instance

instance (jump : Nat → Instruction) : Steady n (emitJump jump) := by unfold emitJump; infer_instance

instance (start : Nat) : Steady n (emitLoop start) := .bind fun scope => by split <;> infer_instance

/-! ### Variables -/

instance (name : String) : Steady n (resolve name) := by
  have hsearch : Steady n ((onScopes fun c => c.scopes.upvalue? name).as (.resolve name)) := by
    refine ⟨fun P c _ => .step (fun h => ?_) fun _ _ hP => ⟨rfl, _, .resolve, hP⟩⟩
    obtain ⟨hcurrent, henclosing⟩ := c.scopes.current.desk_captureFrom name c.scopes.enclosing
    exact h.of_desk hcurrent henclosing
  refine .bind fun scope => ?_
  split
  · infer_instance
  · infer_instance
  · exact .bind fun found => by split <;> infer_instance

instance : Steady n emitReceiver := .bind fun result => by split <;> infer_instance

section

variable {w : Site} {name : String}

theorem declare_orders : Orders ⟨true, w.Inside⟩ ⟨true, w.Declaring name⟩ n (declare name) := by
  intro c hc
  refine .looking ?_
  rw [show scope c = (c.scopes.current, c) from rfl]
  dsimp only
  cases hdeclare : c.scopes.current.declare name with
  | ok s =>
    refine .step (fun h => h.of_desk (Scope.desk_declare hdeclare) rfl) ?_
    rintro _ _ ⟨b, hb⟩
    exact ⟨⟨s, hdeclare, rfl⟩, _, hb ▸ .declare, b, rfl⟩
  | error fault =>
    refine fun hp => ⟨(mistake_orders (P := (fun _ => True)) _ c hc hp).1, fun ns hnoticed => ?_⟩
    have hmem : _ ∈ (mistake (.scope fault) c).2.noticed := c.mem_noticed_report _
    rw [show (mistake (.scope fault) c).2.noticed = #[] from hnoticed] at hmem
    exact absurd hmem (Array.not_mem_empty _)

theorem define_orders (hbs : w.blocks ≠ []) : Orders ⟨b, w.Declaring name⟩ ⟨b, w.Inside⟩ n define :=
  fun _ _ => .step (fun h => h.of_desk (Scope.desk_define _) rfl) fun _ _ ⟨b, hb⟩ =>
    ⟨rfl, _, hb ▸ .define hbs, name :: b, rfl⟩

theorem beginBlock_orders : Orders ⟨b, w.Around⟩ ⟨b, w.Inside⟩ n beginBlock :=
  fun _ _ => .step (fun h => h.of_desk rfl rfl) fun _ _ h => ⟨rfl, _, h ▸ .beginBlock, [], rfl⟩

/-- A part that ends the innermost block. -/
class Ends (n : Nat) (x : Compile α) : Prop where
  orders : ∀ {w : Site}, w.blocks ≠ [] → Orders ⟨true, w.Inside⟩ ⟨true, w.Around⟩ n x

instance : Ends n endBlock :=
  ⟨fun hbs _ _ => .step (fun h => ⟨h.current.emitAll _, h.enclosing⟩) fun _ _ ⟨_, h⟩ =>
    ⟨⟨_, rfl⟩, _, h ▸ .endBlock hbs, rfl⟩⟩

theorem Ends.bind [Growing n x] (hf : ∀ a, Ends n (f a)) : Ends n (x >>= f) :=
  ⟨fun hbs => (Growing.orders fun h => absurd h hbs).bind fun a => (hf a).orders hbs⟩

instance [Growing n x] [∀ a, Ends n (f a)] : Ends n (x >>= f) := .bind inferInstance

theorem Growing.begun [Ends n y] : Growing n (do beginBlock; y) := by
  have hy : ∀ {w : Site}, w.blocks ≠ [] → Orders ⟨true, w.Around⟩ ⟨true, w.Around⟩ n (do beginBlock; y) :=
    fun hbs => beginBlock_orders.bind fun _ => Ends.orders hbs
  refine ⟨fun {w} _ c hc hp => ⟨(hy (w := { w with blocks := [[]] }) nofun c hc hp).1, ?_⟩⟩
  rintro _ hnoticed hns ⟨b, rfl⟩
  obtain ⟨_, htracks, rfl⟩ := (hy (w := { w with blocks := b :: w.blocks }) nofun c hc hp).2 _ hnoticed hns rfl
  exact ⟨_, htracks, b, rfl⟩

theorem leaveFunction_orders {m : Nest} {rest : List Nest} (h : w.outer = m :: rest) :
    Orders ⟨true, w.Inside⟩ ⟨true, (· = m :: rest)⟩ n leaveFunction := by
  refine fun c hc => (Steady.orders (x := emitReturnNil) _ c hc).bind (.looking fun hfinished => ?_)
  have hconstant := Steady.constant (n := n) (k := .routine (scope (emitReturnNil c).2).1.toRoutine) fun _ h =>
    Constant.routine.inj h ▸ hfinished.written.current.toRoutine
  have hleave : Orders ⟨true, w.Inside⟩ ⟨true, (· = m :: rest)⟩ n
      ((onScopes fun c => ((), c.scopes.leave?.getD c.scopes)).as .leave) := by
    refine fun c _ => .step (fun h => h.left) ?_
    rintro _ hns ⟨b, rfl⟩
    rw [h] at hns ⊢
    cases hns with
    | cons _ hrest =>
      obtain ⟨_, _, _, _, henclosing⟩ := List.forall₂_cons_right_iff.mp hrest
      refine ⟨?_, _, .leave, rfl⟩
      show c.scopes.leave? = some (c.scopes.leave?.getD c.scopes)
      rw [Scopes.leave?, henclosing]
      rfl
  exact (hleave.bind fun _ => Steady.orders _) _ (Nat.lt_of_le_of_lt (emitReturnNil.leads c).ahead_le hc) hfinished

end

end Compile

end Mudscript
