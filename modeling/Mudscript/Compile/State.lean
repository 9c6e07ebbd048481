import Mudscript.Compile.Steps

/-!
# The state of a compilation

A compilation reads tokens one by one and writes code as it goes. It always looks at two tokens: the
one it took last, whose line the code it writes now belongs to, and the one ahead.

Mistakes are collected. After the first one the compilation is recovering: it reports nothing more
until the tokens reach a place where a statement ends or begins, so that one mistake yields one
report. Since recovery begins with a report and a report is never withdrawn, a compilation that made
a mistake cannot end as if it had made none.

A part of the compiler (`Compile`) carries the proof that it goes on like that from whatever state it
is started in, so it holds of everything that is put together from such parts.
-/

namespace Mudscript

structure Compiler where
  unread : List Lexed
  endLine : Nat
  previous : Token
  current : Token
  errors : CompileErrors := #[]
  recovering : Bool := false
  /-- Everything that was found wrong, the mistakes included that recovery keeps from being reported. -/
  noticed : CompileErrors := #[]
  /-- Whether a bound on nesting or on a repetition was reached. -/
  exhausted : Bool := false
  scopes : Scopes
  owner : Option String

namespace Compiler

def report (c : Compiler) (e : CompileError) : Compiler :=
  if c.recovering then { c with noticed := c.noticed.push e }
  else { c with recovering := true, errors := c.errors.push e, noticed := c.noticed.push e }

/-- Moves to the next token of `unread`, reporting the faults on the way. The end of the text is
never passed. -/
def moveTo (c : Compiler) : List Lexed → Compiler
  | [] => { c with unread := [], previous := c.current, current := .endOfText c.endLine }
  | .ok t :: unread => { c with unread, previous := c.current, current := t }
  | .error e :: unread => (c.report ⟨e.line, .nowhere, .lexical e.fault⟩).moveTo unread

def start (tokens : Tokens) (scope : Scope) : Compiler :=
  Compiler.moveTo
    { unread := [], endLine := tokens.endLine, previous := .endOfText 1, current := .endOfText 1,
      scopes := ⟨scope, []⟩, owner := scope.owner }
    tokens.items

/-! ### How a compilation goes on -/

/-- A compilation that recovers from a mistake has reported one. -/
def Reported (c : Compiler) : Prop := c.recovering = true → c.errors ≠ #[]

/-- A compilation that noticed a mistake has reported one, and what it reported it has noticed. -/
def Candid (c : Compiler) : Prop :=
  (c.noticed ≠ #[] → c.errors ≠ #[]) ∧ c.errors.toList.Sublist c.noticed.toList

/-- How many tokens are ahead, without the end of the text. -/
def ahead (c : Compiler) : Nat :=
  c.unread.length + if c.current.kind = .endOfText then 0 else 1

/-- The token taken last and the tokens ahead have a property. -/
structure AllTokens (P : Token → Prop) (c : Compiler) : Prop where
  previous : P c.previous
  current : P c.current
  unread : ∀ t, .ok t ∈ c.unread → P t

/-- Nothing that was reported or noticed is withdrawn, and nothing is noticed without a report. -/
structure Keeps (c c' : Compiler) : Prop where
  owner_eq : c'.owner = c.owner
  errors_ne : c.errors ≠ #[] → c'.errors ≠ #[]
  reported : c.Reported → c'.Reported
  candid : c.Reported → c.Candid → c'.Candid
  noticed : ∀ e ∈ c.noticed, e ∈ c'.noticed
  /-- A bound that was reached stays on record. -/
  exhausted : c'.exhausted = false → c.exhausted = false

/-- The state `c'` can come after the state `c`. -/
structure Precedes (c c' : Compiler) : Prop extends c.Keeps c' where
  ahead_le : c'.ahead ≤ c.ahead
  tokens : ∀ {P : Token → Prop}, (∀ line, P (.endOfText line)) → c.AllTokens P → c'.AllTokens P

variable {c c' c'' : Compiler}

theorem Keeps.refl (c : Compiler) : c.Keeps c := ⟨rfl, id, id, fun _ h => h, fun _ h => h, id⟩

theorem Keeps.trans (h : c.Keeps c') (h' : c'.Keeps c'') : c.Keeps c'' :=
  ⟨h'.owner_eq.trans h.owner_eq, h'.errors_ne ∘ h.errors_ne, h'.reported ∘ h.reported,
    fun hreported hcandid => h'.candid (h.reported hreported) (h.candid hreported hcandid),
    fun e he => h'.noticed e (h.noticed e he), h.exhausted ∘ h'.exhausted⟩

theorem Precedes.refl (c : Compiler) : c.Precedes c := ⟨.refl c, Nat.le_refl _, fun _ h => h⟩

theorem Precedes.trans (h : c.Precedes c') (h' : c'.Precedes c'') : c.Precedes c'' :=
  ⟨h.toKeeps.trans h'.toKeeps, Nat.le_trans h'.ahead_le h.ahead_le,
    fun hend hc => h'.tokens hend (h.tokens hend hc)⟩

@[simp] theorem report_scopes (c : Compiler) (e : CompileError) : (c.report e).scopes = c.scopes := by
  unfold report
  split <;> rfl

theorem moveTo_scopes (c : Compiler) (items : List Lexed) : (c.moveTo items).scopes = c.scopes := by
  fun_induction moveTo c items with
  | case1 c => rfl
  | case2 c t unread => rfl
  | case3 c e unread ih => rw [ih, report_scopes]

theorem report_errors_ne (h : c.Reported) (e : CompileError) : (c.report e).errors ≠ #[] := by
  unfold report
  split
  · exact h ‹_›
  · simp

theorem mem_noticed_report (c : Compiler) (e : CompileError) : e ∈ (c.report e).noticed := by
  unfold report
  split <;> exact Array.mem_push_self

theorem report_leads (c : Compiler) (e : CompileError) : c.Precedes (c.report e) := by
  unfold report
  split
  · rename_i hrecovering
    refine ⟨⟨rfl, id, id, fun hreported hcandid => ⟨fun _ => hreported hrecovering, ?_⟩,
      fun _ => Array.mem_push_of_mem e, id⟩, Nat.le_refl _, fun _ h => ⟨h.previous, h.current, h.unread⟩⟩
    simpa using hcandid.2.trans (List.sublist_append_left _ _)
  · refine ⟨⟨rfl, fun _ => by simp, fun _ _ => by simp, fun _ hcandid => ⟨fun _ => by simp, ?_⟩,
      fun _ => Array.mem_push_of_mem e, id⟩, Nat.le_refl _, fun _ h => ⟨h.previous, h.current, h.unread⟩⟩
    simpa using hcandid.2.append (.refl [e])

theorem moveTo_keeps (c : Compiler) (items : List Lexed) : c.Keeps (c.moveTo items) := by
  fun_induction moveTo c items with
  | case1 c => exact ⟨rfl, id, id, fun _ h => h, fun _ h => h, id⟩
  | case2 c t unread => exact ⟨rfl, id, id, fun _ h => h, fun _ h => h, id⟩
  | case3 c e unread ih => exact (report_leads c _).toKeeps.trans ih

theorem moveTo_ahead_le (c : Compiler) (items : List Lexed) : (c.moveTo items).ahead ≤ items.length := by
  fun_induction moveTo c items with
  | case1 c => simp [ahead, Token.endOfText]
  | case2 c t unread =>
    simp only [ahead, List.length_cons]
    split <;> omega
  | case3 c e unread ih =>
    rw [List.length_cons]
    exact Nat.le_succ_of_le ih

theorem moveTo_holds {P : Token → Prop} (hend : ∀ line, P (.endOfText line)) (c : Compiler)
    {items : List Lexed} (hcurrent : P c.current) (h : ∀ t, .ok t ∈ items → P t) : (c.moveTo items).AllTokens P := by
  fun_induction moveTo c items with
  | case1 c => exact ⟨hcurrent, hend _, h⟩
  | case2 c t unread =>
    exact ⟨hcurrent, h t List.mem_cons_self, fun u hu => h u (List.mem_cons_of_mem _ hu)⟩
  | case3 c e unread ih =>
    refine ih ?_ fun u hu => h u (List.mem_cons_of_mem _ hu)
    unfold report
    split <;> exact hcurrent

theorem moveTo_leads (c : Compiler) : c.Precedes (c.moveTo c.unread) :=
  ⟨moveTo_keeps c _, Nat.le_trans (moveTo_ahead_le c _) (Nat.le_add_right _ _),
    fun hend h => moveTo_holds hend c h.current h.unread⟩

end Compiler

/-- A part of the compiler: what it answers and which state it leads to. -/
structure Compile (α : Type) where
  act : Compiler → α × Compiler
  /-- What it does to the scopes on the way. -/
  steps : Compiler → Ghost (List Scopes.Step)
  leads : ∀ c : Compiler, c.Precedes (act c).2
  joined : ∀ c : Compiler, c.scopes.Joined (steps c).value (act c).2.scopes

namespace Compile

variable {α β : Type}

instance : CoeFun (Compile α) fun _ => Compiler → α × Compiler := ⟨act⟩

/-- A part that leaves the scopes alone. -/
@[inline] def apart (act : Compiler → α × Compiler) (leads : ∀ c : Compiler, c.Precedes (act c).2)
    (h : ∀ c, (act c).2.scopes = c.scopes) : Compile α :=
  ⟨act, fun _ => .of [], leads, fun c => by rw [Ghost.value_of]; exact h c⟩

@[inline] protected def pure (a : α) : Compile α := apart (fun c => (a, c)) .refl fun _ => rfl

@[inline] protected def bind (x : Compile α) (f : α → Compile β) : Compile β where
  act c := match x c with
    | (a, c) => f a c
  steps c := (x.steps c).append ((f (x c).1).steps (x c).2)
  leads c := (x.leads c).trans ((f (x c).1).leads (x c).2)
  joined c := by
    rw [Ghost.value_append]
    exact (x.joined c).append ((f (x c).1).joined (x c).2)

instance : Monad Compile where
  pure := Compile.pure
  bind := Compile.bind

theorem ext {x y : Compile α} (hact : x.act = y.act) (hsteps : ∀ c, (x.steps c).value = (y.steps c).value) : x = y := by
  have hsteps : x.steps = y.steps := funext fun c => Ghost.ext (hsteps c)
  cases x
  cases y
  cases hact
  cases hsteps
  rfl

instance : LawfulMonad Compile := .mk' Compile
  (fun _ => ext rfl fun _ => by simp [Functor.map, Compile.bind, Compile.pure, apart])
  (fun _ _ => ext rfl fun _ => by simp [bind, pure, Compile.bind, Compile.pure, apart])
  (fun _ _ _ => ext rfl fun _ => by simp [bind, Compile.bind])

instance : MonadReader Compiler Compile := ⟨apart (fun c => (c, c)) .refl fun _ => rfl⟩

/-- Changes nothing but the scopes. -/
@[inline] def onScopes (f : Compiler → α × Scopes) : Compile α where
  act c := match f c with
    | (a, scopes) => (a, { c with scopes })
  steps c := .of [⟨.write, c.scopes, (f c).2⟩]
  leads _ := ⟨⟨rfl, id, id, fun _ h => h, fun _ h => h, id⟩, Nat.le_refl _,
    fun _ h => ⟨h.previous, h.current, h.unread⟩⟩
  joined c := by
    rw [Ghost.value_of]
    exact ⟨rfl, rfl⟩

/-- The same part, on record as one step. -/
@[inline] def as (x : Compile α) (change : Scopes.Change) : Compile α where
  act := x.act
  steps c := .of [⟨change, c.scopes, (x c).2.scopes⟩]
  leads := x.leads
  joined c := by
    rw [Ghost.value_of]
    exact ⟨rfl, rfl⟩

/-! ### Tokens -/

def advance : Compile Unit :=
  apart (fun c => ((), c.moveTo c.unread)) Compiler.moveTo_leads fun c => c.moveTo_scopes c.unread

def current : Compile TokenKind := return (← read).current.kind

def previous : Compile TokenKind := return (← read).previous.kind

def check (kind : TokenKind) : Compile Bool := return (← current) = kind

def accept (kind : TokenKind) : Compile Bool := do
  if ← check kind then
    advance
    return true
  else return false

/-! ### Mistakes -/

def report (e : Compiler → CompileError) : Compile Unit :=
  apart (fun c => ((), c.report (e c))) (fun c => c.report_leads (e c)) fun c => c.report_scopes (e c)

def mistake (m : Mistake) : Compile Unit := report fun c => ⟨c.previous.line, .ofToken c.previous, m⟩

def mistakeAhead (m : Mistake) : Compile Unit := report fun c => ⟨c.current.line, .ofToken c.current, m⟩

def expect (kind : TokenKind) (what : String) : Compile Unit := do
  if ← check kind then advance else mistakeAhead (.expected what)

/-- Takes the name ahead; without one it is the empty name. -/
def expectName (what : String) : Compile String := do
  match ← current with
  | .name name =>
    advance
    return name
  | _ =>
    mistakeAhead (.expected what)
    return ""

def exhaust : Compile Unit :=
  apart (fun c => ((), { c with exhausted := true })) (fun _ => ⟨⟨rfl, id, id, fun _ h => h, fun _ h => h, nofun⟩,
    Nat.le_refl _, fun _ h => ⟨h.previous, h.current, h.unread⟩⟩) fun _ => rfl

/-- Runs `body` as long as it answers `true`, at most `bound` times. -/
def repeatUpTo (body : Compile Bool) : Nat → Compile Unit
  | 0 => exhaust
  | bound + 1 => do if ← body then repeatUpTo body bound

/-- Whether the tokens are at a place where a statement ends or begins. -/
def atBoundary : Compile Bool := do
  let ahead ← current
  return ahead = .endOfText || (← previous) = .symbol .semicolon || ahead.startsStatement

/-- Takes the token ahead unless it is at such a place, and tells whether it did. -/
def skip : Compile Bool := do
  if ← atBoundary then return false
  advance
  return true

def settle : Compile Unit :=
  apart (fun c => ((), { c with recovering := false }))
    (fun _ => ⟨⟨rfl, id, fun _ => nofun, fun _ h => h, fun _ h => h, id⟩,
    Nat.le_refl _, fun _ h => ⟨h.previous, h.current, h.unread⟩⟩) fun _ => rfl

/-- Ends recovery at the next place where a statement ends or begins. -/
def resume (bound : Nat) : Compile Unit := do
  if (← read).recovering then
    settle
    repeatUpTo skip bound

end Compile

end Mudscript
