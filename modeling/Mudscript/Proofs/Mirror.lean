import Mudscript.Proofs.Outline
import Mudscript.Proofs.Grammar

/-!
# Compiling beside generating

`Mirrors x g c Q` compares a part `x` of the compiler, started in the state `c`, with generating code
by `g` from the outline of the scopes in that state. If `g` meets a mistake then `x` leaves a report,
and otherwise `x` leaves the scopes with the outline that `g` leaves, and `Q` holds of the two answers
and the state. A report is never withdrawn, so the two can be compared one step at a time.

The state in between is described by `Compiler.At`: no mistake was made, these tokens are ahead, and
these pieces of code were written since some earlier state of the scopes.
-/

namespace Mudscript

variable {m : Mistake} {distance operand : Nat} {what : String}

def lexedKind? : Lexed → Option TokenKind
  | .ok t => some t.kind
  | .error _ => none

namespace Compiler

/-- The kinds of the tokens ahead, up to the end of the text. -/
def Ahead (c : Compiler) : List (Option TokenKind) → Prop
  | [] => c.current.kind = .endOfText ∧ c.unread = []
  | k :: ks => some c.current.kind = k ∧ c.current.kind ≠ .endOfText ∧
      c.unread.map lexedKind? = ks ∧ some .endOfText ∉ ks

theorem Ahead.moveTo {c : Compiler} {k} {ts : List TokenKind} (h : c.Ahead ((k :: ts).map some)) :
    (c.moveTo c.unread).Ahead (ts.map some) ∧ (c.moveTo c.unread).errors = c.errors ∧
      (c.moveTo c.unread).recovering = c.recovering := by
  obtain ⟨_, _, hunread, hend⟩ := h
  cases ts with
  | nil =>
    rw [List.map_nil, List.map_eq_nil_iff] at hunread
    rw [hunread]
    exact ⟨⟨rfl, rfl⟩, rfl, rfl⟩
  | cons k' ts =>
    obtain ⟨lexed, rest, hcons, hkind, hrest⟩ := List.map_eq_cons_iff.mp hunread
    rw [hcons]
    cases lexed with
    | error e => cases hkind
    | ok t =>
      rw [List.map_cons, List.mem_cons, not_or] at hend
      refine ⟨⟨hkind, fun hkind' => hend.1 ?_, hrest, hend.2⟩, rfl, rfl⟩
      rw [← hkind', ← hkind]
      rfl

/-- No mistake was made, these tokens are ahead, and these pieces of code were written since the
scopes were `s`. -/
structure At (c : Compiler) (owner : Option String) (ts : List TokenKind) (s : Scopes)
    (ps : List Piece) : Prop where
  errors : c.errors = #[]
  recovering : c.recovering = false
  owner_eq : c.owner = owner
  ahead : c.Ahead (ts.map some)
  wrote : s.Wrote ps c.scopes

namespace At

variable {c c' : Compiler} {owner : Option String} {ts us : List TokenKind} {s : Scopes}
  {ps qs : List Piece}

section

variable (h : c.At owner ts s ps)

include h

theorem current : c.current.kind = ts.headD .endOfText := by
  cases ts with
  | nil => exact h.ahead.1
  | cons k ts => exact Option.some.inj h.ahead.1

theorem here_eq : c.scopes.here = s.here + Pieces.size ps := h.wrote.here_eq

theorem self : c.At owner ts c.scopes [] := { h with wrote := .refl _ }

theorem trans (h' : c'.At owner us c.scopes qs) : c'.At owner us s (ps ++ qs) :=
  { h' with wrote := h.wrote.trans h'.wrote }

theorem withScopes {s' : Scopes} (hwrote : s.Wrote qs s') : { c with scopes := s' }.At owner ts s qs :=
  ⟨h.errors, h.recovering, h.owner_eq, h.ahead, hwrote⟩

theorem reported : c.Reported := fun hrecovering => by
  rw [h.recovering] at hrecovering
  cases hrecovering

end

theorem moveTo {k} (h : c.At owner (k :: ts) s ps) : (c.moveTo c.unread).At owner ts s ps := by
  obtain ⟨hahead, herrors, hrecovering⟩ := h.ahead.moveTo
  refine ⟨herrors.trans h.errors, hrecovering.trans h.recovering, ?_, hahead, ?_⟩
  · rw [(moveTo_keeps c _).owner_eq, h.owner_eq]
  · rw [moveTo_scopes]
    exact h.wrote

end At

end Compiler

/-! ### Generating -/

namespace Generate

open Compile (Access)

variable {α β : Type} {g : Generate α} {k : α → Generate β} {σ σ' : Scopes} {a : α}

theorem get_bind (f : Scopes → Generate α) (σ : Scopes) : (get >>= f) σ = f σ σ := rfl

theorem bind_eq_of_ok (h : g σ = .ok (a, σ')) : (g >>= k) σ = k a σ' := by
  show (g σ >>= fun r => k r.1 r.2) = _
  rw [h]
  rfl

theorem bind_eq_of_error (h : g σ = .error m) : (g >>= k) σ = .error m := by
  show (g σ >>= fun r => k r.1 r.2) = _
  rw [h]
  rfl

theorem bind_congr {g'} (h : g σ = g' σ') : (g >>= k) σ = (g' >>= k) σ' := by
  show (g σ >>= fun r => k r.1 r.2) = _
  rw [h]
  rfl

theorem pool_apply (k : Constant) (σ : Scopes) : pool k σ = match σ.current.draft.addConstant k with
      | (.ok index, d) => .ok (index, σ.withDraft d)
      | (.error fault, _) => .error (.code fault) := by
  show (match σ.current.draft.addConstant k with
    | (.ok index, d) => do
      modify (·.withDraft d)
      return index
    | (.error fault, _) => throw (.code fault) : Generate Nat) σ = _
  match σ.current.draft.addConstant k with
  | (.ok _, _) | (.error _, _) => rfl

theorem declare_apply (x : String) (σ : Scopes) : declare x σ = match σ.current.declare x with
      | .ok s => .ok ((), σ.onCurrent fun _ => s)
      | .error fault => .error (.scope fault) := by
  rw [declare, get_bind]
  cases σ.current.declare x <;> rfl

theorem forward_apply (distance : Nat) (σ : Scopes) : forward distance σ
      = if distance ≤ maxWord then .ok (distance, σ) else .error (.code .jumpTooLarge) := by
  rw [forward]
  split <;> rfl

theorem backward_apply (distance : Nat) (σ : Scopes) : backward distance σ
      = if distance ≤ maxWord then .ok (distance, σ) else .error (.code .loopTooLarge) := by
  rw [backward]
  split <;> rfl

theorem resolve_apply (x : String) (σ : Scopes) : resolve x σ = match σ.current.slot? x with
      | .error fault => .error (.scope fault)
      | .ok (some slot) => .ok (.local_ slot, σ)
      | .ok none =>
        match σ.upvalue? x with
        | (.error fault, _) => .error (.scope fault)
        | (.ok (some index), σ) => .ok (.upvalue index, σ)
        | (.ok none, σ) =>
          (pool (.text x) >>= fun index => get >>= fun σ =>
            Pure.pure (if σ.inObject then .property index else .global index)) σ := by
  rw [resolve, get_bind]
  rcases σ.current.slot? x with _ | _ | _
  · rfl
  · dsimp only
    rw [get_bind]
    rcases σ.upvalue? x with ⟨_ | _ | _, σ'⟩
    · rfl
    · dsimp only
      show (do
        let index ← pool (.text x)
        if (← get).inObject then return .property index else return .global index : Generate Access) σ' = _
      refine congrFun ?_ σ'
      congr 1
      funext index
      congr 1
      funext σ''
      exact (apply_ite Pure.pure _ _ _).symm
    · rfl
  · rfl

end Generate

open Generate (forward backward pool aim)

theorem Local.legible_leave (locals : List Local) : ∀ i ∈ locals.map Local.leave, ∀ constants, i.Legible constants := by
  intro i hi constants
  obtain ⟨l, _, rfl⟩ := List.mem_map.mp hi
  unfold Local.leave
  split <;> trivial

namespace Compile

variable {α β γ δ : Type}

theorem onDraft_apply (f : Draft → α × Draft) (c : Compiler) : onDraft f c
    = ((f c.scopes.current.draft).1, { c with scopes := c.scopes.withDraft (f c.scopes.current.draft).2 }) := rfl

theorem constant_apply (k : Constant) (c : Compiler) : constant k c = match c.scopes.current.draft.addConstant k with
      | (.ok index, d) => (index, { c with scopes := c.scopes.withDraft d })
      | (.error fault, d) =>
        (0, (mistake (.code fault) { c with scopes := c.scopes.withDraft d }).2) := by
  rw [constant, bind_apply, onDraft_apply]
  rcases c.scopes.current.draft.addConstant k with ⟨_ | _, _⟩ <;> rfl

theorem declare_apply (x : String) (c : Compiler) : declare x c = match c.scopes.current.declare x with
      | .ok scope => ((), { c with scopes := c.scopes.onCurrent fun _ => scope })
      | .error fault => mistake (.scope fault) c := by
  rw [declare, bind_apply, show scope c = (c.scopes.current, c) from rfl]
  dsimp only
  cases c.scopes.current.declare x <;> rfl

theorem patchJump_apply (operand : Nat) (c : Compiler) :
    patchJump operand c = match c.scopes.current.draft.patchJump operand with
      | (none, d) => ((), { c with scopes := c.scopes.withDraft d })
      | (some fault, d) => mistake (.code fault) { c with scopes := c.scopes.withDraft d } := by
  rw [patchJump, bind_apply, onDraft_apply]
  rcases c.scopes.current.draft.patchJump operand with ⟨_ | _, _⟩ <;> rfl

theorem emitLoop_apply (start : Nat) (c : Compiler) :
    emitLoop start c = match c.scopes.current.draft.loopDistance start with
      | .ok distance => emit (.loop distance) c
      | .error fault => emit (.loop 0) (mistake (.code fault) c).2 := by
  show (match c.scopes.current.draft.loopDistance start with
    | .ok distance => emit (.loop distance)
    | .error fault => do
      mistake (.code fault)
      emit (.loop 0) : Compile Unit) c = _
  match c.scopes.current.draft.loopDistance start with
  | .ok _ | .error _ => rfl

theorem resolve_apply (x : String) (c : Compiler) : resolve x c = match c.scopes.current.slot? x with
      | .error fault => (.error fault, c)
      | .ok (some slot) => (.ok (.local_ slot), c)
      | .ok none =>
        match c.scopes.upvalue? x with
        | (.error fault, s) => (.error fault, { c with scopes := s })
        | (.ok (some index), s) => (.ok (.upvalue index), { c with scopes := s })
        | (.ok none, s) =>
          (constant (.text x) >>= fun index => read >>= fun c =>
            Pure.pure (.ok (if c.scopes.inObject then .property index else .global index)))
            { c with scopes := s } := by
  have hname : (nameConstant x >>= fun index => read >>= fun c =>
        if c.scopes.inObject then Pure.pure (.ok (.property index)) else Pure.pure (.ok (.global index)) :
          Compile (Except ScopeFault Access))
      = constant (.text x) >>= fun index => read >>= fun c =>
        Pure.pure (.ok (if c.scopes.inObject then .property index else .global index)) := by
    refine congrArg (constant (.text x) >>= ·) (funext fun index => congrArg (read >>= ·) (funext fun c' => ?_))
    exact (apply_ite (fun a => Pure.pure (Except.ok a)) _ _ _).symm
  unfold resolve
  rw [hname, bind_apply]
  show (match c.scopes.current.slot? x with
    | .error fault => return .error fault
    | .ok (some slot) => return .ok (.local_ slot)
    | .ok none => _ : Compile (Except ScopeFault Access)) c = _
  match c.scopes.current.slot? x with
  | .error _ | .ok (some _) => rfl
  | .ok none =>
    show (match (c.scopes.upvalue? x).1 with
      | .error fault => Pure.pure (.error fault)
      | .ok (some index) => Pure.pure (.ok (.upvalue index))
      | .ok none => _ : Compile (Except ScopeFault Access)) { c with scopes := (c.scopes.upvalue? x).2 } = _
    match c.scopes.upvalue? x with
    | (.error _, _) | (.ok (some _), _) | (.ok none, _) => rfl

theorem mistake_errors_ne {c : Compiler} (h : c.Reported) (m : Mistake) :
    (mistake m c).2.errors ≠ #[] := Compiler.report_errors_ne h _

def Mirrors (x : Compile α) (g : Generate β) (c : Compiler) (Q : α → Compiler → β → Prop) : Prop :=
  match g c.scopes.outline with
  | .ok (b, σ) => (x c).2.scopes.outline = σ ∧ Q (x c).1 (x c).2 b
  | .error _ => (x c).2.errors ≠ #[]

/-- `x` mirrors `g` wherever the tokens are ahead and the code is written. -/
def MirrorsAt (owner : Option String) (ts : List TokenKind) (s : Scopes) (ps : List Piece) (x : Compile α)
    (g : Generate β) (Q : α → Compiler → β → Prop) : Prop := ∀ c : Compiler, c.At owner ts s ps → Mirrors x g c Q

namespace Mirrors

variable {x : Compile α} {g : Generate β} {c : Compiler} {Q : α → Compiler → β → Prop}
  {f : α → Compile γ} {k : β → Generate δ} {R : γ → Compiler → δ → Prop}

theorem of_ok {b : β} {σ : Scopes} (hg : g c.scopes.outline = .ok (b, σ))
    (houtline : (x c).2.scopes.outline = σ) (hQ : Q (x c).1 (x c).2 b) : Mirrors x g c Q := by
  rw [Mirrors, hg]
  exact ⟨houtline, hQ⟩

theorem of_error (hg : g c.scopes.outline = .error m) (hx : (x c).2.errors ≠ #[]) : Mirrors x g c Q := by
  rw [Mirrors, hg]
  exact hx

theorem congr {x' g'} {c' : Compiler} (hx : x c = x' c')
    (hg : g c.scopes.outline = g' c'.scopes.outline) (h : Mirrors x' g' c' Q) : Mirrors x g c Q := by
  rw [Mirrors, hx, hg]
  exact h

theorem mono {Q' : α → Compiler → β → Prop} (h : Mirrors x g c Q)
    (hle : ∀ a c' b, Q a c' b → Q' a c' b) : Mirrors x g c Q' := by
  unfold Mirrors at h ⊢
  split
  · rename_i hg
    rw [hg] at h
    exact ⟨h.1, hle _ _ _ h.2⟩
  · rename_i hg
    rw [hg] at h
    exact h

theorem fail (hg : g c.scopes.outline = .error m) (hx : (x c).2.errors ≠ #[]) : Mirrors (x >>= f) (g >>= k) c R :=
  of_error (Generate.bind_eq_of_error hg) ((f (x c).1).errors_ne hx)

theorem bind (hx : Mirrors x g c Q)
    (hf : ∀ a c' b, Q a c' b → Mirrors (f a) (k b) c' R) : Mirrors (x >>= f) (g >>= k) c R := by
  unfold Mirrors at hx
  split at hx
  · rename_i b σ hg
    obtain ⟨houtline, hQ⟩ := hx
    have hrest := hf _ _ _ hQ
    rw [Mirrors, houtline] at hrest
    rw [Mirrors, Generate.bind_eq_of_ok hg]
    exact hrest
  · rename_i m hg
    exact fail hg hx

theorem pure {a : α} {b : β} (h : Q a c b) : Mirrors (Pure.pure a) (Pure.pure b) c Q :=
  of_ok rfl rfl h

theorem step {h} (houtline : (x c).2.scopes.outline = c.scopes.outline)
    (hf : Mirrors (f (x c).1) h (x c).2 R) : Mirrors (x >>= f) h c R := by
  rw [Mirrors, houtline] at hf
  exact hf

theorem change {b : β} (hg : g c.scopes.outline = .ok (b, (x c).2.scopes.outline))
    (hf : Mirrors (f (x c).1) (k b) (x c).2 R) : Mirrors (x >>= f) (g >>= k) c R := by
  rw [Mirrors, Generate.bind_eq_of_ok hg]
  exact hf

theorem look {y h} (hy : Mirrors y (h c.scopes.outline) c R) : Mirrors y (get >>= h) c R := hy

theorem last (h : Mirrors (x >>= Pure.pure) g c Q) : Mirrors x g c Q := h

theorem done (h : Mirrors x (g >>= Pure.pure) c Q) : Mirrors x g c Q := by
  rwa [bind_pure] at h

theorem map {φ : β → δ} {Q : α → Compiler → δ → Prop} (h : Mirrors x g c fun a c' b => Q a c' (φ b)) :
    Mirrors x (g >>= fun b => Pure.pure (φ b)) c Q :=
  last (bind h fun _ _ _ hQ => pure hQ)

/-! ### Tokens -/

variable {owner : Option String} {ts : List TokenKind} {s : Scopes} {ps : List Piece}
  {kind : TokenKind} {g : Generate δ}

theorem advance {f} (h : c.At owner (kind :: ts) s ps) (hf : MirrorsAt owner ts s ps (f ()) g R) :
    Mirrors (Compile.advance >>= f) g c R :=
  step (congrArg Scopes.outline (Compiler.moveTo_scopes c c.unread)) (hf _ h.moveTo)

theorem exhaust {f} (h : c.At owner ts s ps)
    (hf : MirrorsAt owner ts s ps (f ()) g R) : Mirrors (Compile.exhaust >>= f) g c R :=
  step rfl (hf { c with exhausted := true } ⟨h.errors, h.recovering, h.owner_eq, h.ahead, h.wrote⟩)

theorem take {f} (h : c.At owner (kind :: ts) s ps) (hf : MirrorsAt owner ts s ps (f kind) g R) :
    Mirrors (Compile.advance >>= fun _ => previous >>= f) g c R := by
  have hkind : (c.moveTo c.unread).previous.kind = kind := by
    rw [Compiler.moveTo_previous, h.current, List.headD_cons]
  have hnext := hf _ h.moveTo
  rw [← hkind] at hnext
  exact step (congrArg Scopes.outline (Compiler.moveTo_scopes c c.unread)) hnext

theorem taking {x} {b : β} {f} (hx : x c = (b, c.moveTo c.unread))
    (h : c.At owner (kind :: ts) s ps) (hf : MirrorsAt owner ts s ps (f b) g R) : Mirrors (x >>= f) g c R := by
  refine step ?_ ?_ <;> rw [hx]
  · exact congrArg Scopes.outline (Compiler.moveTo_scopes c c.unread)
  · exact hf _ h.moveTo

theorem staying {x} {b : β} {f} (hx : x c = (b, c)) (hf : Mirrors (f b) g c R) : Mirrors (x >>= f) g c R := by
  refine step ?_ ?_ <;> rw [hx]
  exact hf

theorem resume {f} {bound : Nat} (h : c.At owner ts s ps)
    (hf : Mirrors (f ()) g c R) : Mirrors (Compile.resume bound >>= f) g c R := by
  have hresume : Compile.resume bound c = ((), c) := by
    rw [resume_apply, h.recovering]
    rfl
  exact staying hresume hf

theorem current {f} (h : c.At owner ts s ps)
    (hf : Mirrors (f (ts.headD .endOfText)) g c R) : Mirrors (Compile.current >>= f) g c R := by
  rw [← h.current] at hf
  exact hf

theorem check {f} (h : c.At owner (kind :: ts) s ps)
    (hf : Mirrors (f true) g c R) : Mirrors (Compile.check kind >>= f) g c R := by
  have hcheck : decide (c.current.kind = kind) = true := decide_eq_true h.current
  rw [← hcheck] at hf
  exact hf

theorem checkNot {f} (h : c.At owner ts s ps) (hne : ts.headD .endOfText ≠ kind)
    (hf : Mirrors (f false) g c R) : Mirrors (Compile.check kind >>= f) g c R := by
  have hcheck : decide (c.current.kind = kind) = false := decide_eq_false (h.current ▸ hne)
  rw [← hcheck] at hf
  exact hf

theorem accept {f} (h : c.At owner (kind :: ts) s ps) (hf : MirrorsAt owner ts s ps (f true) g R) :
    Mirrors (Compile.accept kind >>= f) g c R := by
  have haccept : Compile.accept kind c = (true, c.moveTo c.unread) :=
    (Compile.accept_apply kind c).trans (if_pos h.current)
  exact taking haccept h hf

theorem reject {f} (h : c.At owner ts s ps) (hne : ts.headD .endOfText ≠ kind)
    (hf : Mirrors (f false) g c R) : Mirrors (Compile.accept kind >>= f) g c R := by
  have haccept : Compile.accept kind c = (false, c) :=
    (Compile.accept_apply kind c).trans (if_neg (h.current ▸ hne))
  exact staying haccept hf

theorem expect {f} (h : c.At owner (kind :: ts) s ps)
    (hf : MirrorsAt owner ts s ps (f ()) g R) : Mirrors (Compile.expect kind what >>= f) g c R := by
  have hexpect : Compile.expect kind what c = ((), c.moveTo c.unread) := by
    show (if decide (c.current.kind = kind) = true then _ else _ : Compile Unit) c = _
    rw [h.current, List.headD_cons, if_pos (decide_eq_true rfl)]
    rfl
  exact taking hexpect h hf

theorem expectName {f} {x : String} (h : c.At owner (.name x :: ts) s ps)
    (hf : MirrorsAt owner ts s ps (f x) g R) : Mirrors (Compile.expectName what >>= f) g c R := by
  have hexpect : Compile.expectName what c = (x, c.moveTo c.unread) := by
    rw [Compile.expectName, bind_apply, show Compile.current c = (.name x, c) from Prod.ext h.current rfl]
    rfl
  exact taking hexpect h hf

theorem assignment {f} {op : AssignmentOperator} (h : c.At owner (.symbol op.symbol :: ts) s ps)
    (hf : MirrorsAt owner ts s ps (f (some (.symbol op.symbol))) g R) : Mirrors (assignment? true >>= f) g c R := by
  have hassignment : assignment? true c = (some (.symbol op.symbol), c.moveTo c.unread) := by
    show (if (true && c.current.kind.isAssignment) = true then _ else _ : Compile (Option TokenKind)) c = _
    rw [h.current, List.headD_cons, op.isAssignment_symbol]
    rfl
  exact taking hassignment h hf

theorem noAssignment {f} {canAssign : Bool} (h : c.At owner ts s ps)
    (hne : (ts.headD .endOfText).isAssignment = false) (hf : Mirrors (f none) g c R) :
    Mirrors (assignment? canAssign >>= f) g c R := by
  have hassignment : assignment? canAssign c = (none, c) := by
    show (if (canAssign && c.current.kind.isAssignment) = true then _ else _ :
      Compile (Option TokenKind)) c = _
    rw [h.current, hne, Bool.and_false]
    rfl
  exact staying hassignment hf

/-! ### Writing -/

theorem emit {f} {i : Instruction} (h : c.At owner ts s ps) (hi : i.Legible c.scopes.current.draft.constants)
    (hf : MirrorsAt owner ts s (ps ++ [.write i]) (f ()) g R) : Mirrors (Compile.emit i >>= f) g c R :=
  step (c.scopes.outline_emit i _) (hf _ (h.withScopes (h.wrote.emit' hi _)))

theorem here {f} (h : c.At owner ts s ps)
    (hf : Mirrors (f (s.here + Pieces.size ps)) g c R) : Mirrors (Compile.here >>= f) g c R := by
  rw [← h.here_eq] at hf
  exact hf

theorem emitJump {f jump} (hjump : Instruction.IsJump jump) (h : c.At owner ts s ps)
    (hf : MirrorsAt owner ts s (ps ++ [.write (jump maxWord)]) (f (s.here + Pieces.size ps + 1)) g R) :
    Mirrors (Compile.emitJump jump >>= f) g c R := by
  have hassoc : Compile.emitJump jump >>= f
      = Compile.emit (jump maxWord) >>= fun _ => Compile.here >>= fun offset => f (offset - 2) := by
    simp only [Compile.emitJump, bind_assoc, pure_bind]
  rw [hassoc]
  refine emit h (hjump.legible _ _) fun c' h' => here h' ?_
  have hoperand : s.here + Pieces.size (ps ++ [.write (jump maxWord)]) - 2
      = s.here + Pieces.size ps + 1 := by
    rw [Pieces.size_append, Pieces.size_cons, Pieces.size_nil]
    show s.here + (Pieces.size ps + ((jump maxWord).size + 0)) - 2 = _
    rw [hjump.size_eq]
    omega
  rw [hoperand]
  exact hf c' h'

theorem patchJump {f k jump} (hjump : Instruction.IsJump jump) (ps qs : List Piece)
    (h : c.At owner ts s (ps ++ .write (jump maxWord) :: qs))
    (hoperand : operand = s.here + Pieces.size ps + 1) (hdistance : distance = Pieces.size qs)
    (hf : MirrorsAt owner ts s (ps ++ .write (jump distance) :: qs) (f ()) (k distance) R) :
    Mirrors (Compile.patchJump operand >>= f) (forward distance >>= k) c R := by
  have hreach : c.scopes.current.draft.size - operand - 2 = distance := by
    have hhere := h.here_eq
    rw [Pieces.size_append, Pieces.size_cons] at hhere
    have hsize : (Piece.write (jump maxWord)).size = 3 := hjump.size_eq _
    unfold Scopes.here at hhere hoperand
    omega
  by_cases hle : distance ≤ maxWord
  · have hpatch : Compile.patchJump operand c
        = ((), { c with scopes := c.scopes.withDraft (c.scopes.current.draft.patchWord operand distance) }) := by
      rw [patchJump_apply, Draft.patchJump, hreach, if_pos hle]
    have hwrote : s.Wrote (ps ++ .write (jump distance) :: qs)
        (c.scopes.withDraft (c.scopes.current.draft.patchWord operand distance)) :=
      h.wrote.patch hjump hoperand (by rw [Draft.patchJump, hreach, if_pos hle])
    refine change (b := distance) ?_ ?_
    · rw [hpatch, Generate.forward_apply, if_pos hle]
      rfl
    · rw [hpatch]
      exact hf _ (h.withScopes hwrote)
  · refine fail (m := .code .jumpTooLarge) ?_ ?_
    · rw [Generate.forward_apply, if_neg hle]
    · rw [patchJump_apply, Draft.patchJump, hreach, if_neg hle]
      exact mistake_errors_ne (c := { c with scopes := _ }) h.reported _

theorem emitLoop {f k} {start : Nat} (back : Nat) (h : c.At owner ts s ps)
    (hback : start + back = s.here + Pieces.size ps) (hdistance : distance = back + 3)
    (hf : MirrorsAt owner ts s (ps ++ [.write (.loop distance)]) (f ()) (k distance) R) :
    Mirrors (Compile.emitLoop start >>= f) (backward distance >>= k) c R := by
  have hreach : c.scopes.current.draft.size + 3 - start = distance := by
    have hhere := h.here_eq
    unfold Scopes.here at hhere hback
    omega
  by_cases hle : distance ≤ maxWord
  · have hloop : Compile.emitLoop start c = Compile.emit (.loop distance) c := by
      rw [emitLoop_apply, Draft.loopDistance, hreach, if_pos hle]
    refine change (b := distance) ?_ ?_
    · rw [hloop, Generate.backward_apply, if_pos hle]
      exact congrArg (fun σ => Except.ok (distance, σ)) (c.scopes.outline_emit _ _).symm
    · rw [hloop]
      exact hf _ (h.withScopes (h.wrote.emit' (i := .loop distance) trivial _))
  · refine fail (m := .code .loopTooLarge) ?_ ?_
    · rw [Generate.backward_apply, if_neg hle]
    · rw [emitLoop_apply, Draft.loopDistance, hreach, if_neg hle]
      exact mistake_errors_ne h.reported _

theorem pooling {f m} {k : Constant} (hk : ∀ q, k = .routine q → q.Logged) (h : c.At owner ts s ps)
    (hf : ∀ i c', c'.At owner ts s ps →
      (k.key? = none → i < 65536 ∧ c'.scopes.current.draft.constants[i]? = some k) → Mirrors (f i) (m i) c' R) :
    Mirrors (Compile.constant k >>= f) (pool k.withoutLines >>= m) c R := by
  obtain ⟨result, d, hadd⟩ : ∃ result d, c.scopes.current.draft.addConstant k = (result, d) :=
    ⟨_, _, rfl⟩
  have hgen : c.scopes.outline.current.draft.addConstant k.withoutLines = (result, d.outline) := by
    have houtline := c.scopes.current.draft.outline_addConstant k
    rw [hadd] at houtline
    exact houtline
  cases result with
  | ok index =>
    have hconstant : Compile.constant k c = (index, { c with scopes := c.scopes.withDraft d }) := by
      rw [constant_apply, hadd]
    refine change (b := index) ?_ ?_
    · rw [hconstant, Generate.pool_apply, hgen]
      rfl
    · rw [hconstant]
      refine hf _ _ (h.withScopes (h.wrote.idle (.constant hadd hk))) fun hkey => ?_
      rcases Draft.addConstant_ok hadd with ⟨_, hsome⟩ | ⟨hpushed, hindex, hle⟩
      · rw [hkey] at hsome
        cases hsome
      · refine ⟨Nat.lt_succ_of_le hle, ?_⟩
        show d.constants[index]? = some k
        rw [hpushed, hindex, Array.getElem?_push_size]
  | error fault =>
    refine fail (m := .code fault) ?_ ?_
    · rw [Generate.pool_apply, hgen]
    · rw [constant_apply, hadd]
      exact mistake_errors_ne (c := { c with scopes := c.scopes.withDraft d }) h.reported _

theorem constant {f m} {k : Constant} (hk : ∀ q, k ≠ .routine q)
    (h : c.At owner ts s ps) (hf : ∀ i, MirrorsAt owner ts s ps (f i) (m i) R) :
    Mirrors (Compile.constant k >>= f) (pool k.withoutLines >>= m) c R :=
  pooling (fun q hq => absurd hq (hk q)) h fun i c' h' _ => hf i c' h'

section

variable (h : c.At owner ts s ps)

include h

theorem text {f m} {x : String} (hf : ∀ i, MirrorsAt owner ts s ps (f i) (m i) R) :
    Mirrors (Compile.constant (.text x) >>= f) (pool (.text x) >>= m) c R :=
  constant (fun _ => Constant.noConfusion) h hf

/-! ### Variables -/

theorem resolve {x : String} {f k} (herror : ∀ fault c', c'.Reported → (f (.error fault) c').2.errors ≠ #[])
    (hf : ∀ access, MirrorsAt owner ts s ps (f (.ok access)) (k access) R) :
    Mirrors (Compile.resolve x >>= f) (Generate.resolve x >>= k) c R := by
  have hcompile := resolve_apply x c
  have hgenerate := Generate.resolve_apply x c.scopes.outline
  rw [c.scopes.outline_upvalue? x] at hgenerate
  rw [show c.scopes.outline.current.slot? x = c.scopes.current.slot? x from rfl] at hgenerate
  match hslot : c.scopes.current.slot? x with
  | .error fault =>
    rw [hslot] at hcompile hgenerate
    refine of_error (Generate.bind_eq_of_error hgenerate) ?_
    rw [bind_apply, hcompile]
    exact herror fault c h.reported
  | .ok (some slot) =>
    rw [hslot] at hcompile hgenerate
    exact congr (by rw [bind_apply, hcompile]) (Generate.bind_eq_of_ok hgenerate) (hf _ c h)
  | .ok none =>
    rw [hslot] at hcompile hgenerate
    have hidle : c.scopes.Wrote [] (c.scopes.upvalue? x).2 :=
      .of_desk (c.scopes.current.desk_captureFrom x _).1 (c.scopes.current.desk_captureFrom x _).2
    match hfound : c.scopes.upvalue? x with
    | (.error fault, s') =>
      rw [hfound] at hcompile hgenerate
      refine of_error (Generate.bind_eq_of_error hgenerate) ?_
      rw [bind_apply, hcompile]
      exact herror fault _ h.reported
    | (.ok (some index), s') =>
      rw [hfound] at hcompile hgenerate hidle
      exact congr (by rw [bind_apply, hcompile]) (Generate.bind_eq_of_ok hgenerate)
        (hf _ { c with scopes := s' } (h.withScopes (h.wrote.idle hidle)))
    | (.ok none, s') =>
      rw [hfound] at hcompile hgenerate hidle
      have hpool : Mirrors ((Compile.constant (.text x) >>= fun index => read >>= fun c' =>
            Pure.pure (.ok (if c'.scopes.inObject then .property index else .global index))) >>= f)
          ((pool (.text x) >>= fun index => get >>= fun σ =>
            Pure.pure (if σ.inObject then .property index else .global index)) >>= k)
          { c with scopes := s' } R := by
        simp only [bind_assoc, pure_bind]
        refine text (h.withScopes (h.wrote.idle hidle)) fun index c' h' => look ?_
        rw [c'.scopes.outline_inObject]
        exact hf _ c' h'
      exact congr (by rw [bind_apply, hcompile]; rfl) (Generate.bind_congr hgenerate) hpool

theorem receiver {f k} (hf : ∀ is, MirrorsAt owner ts s (ps ++ written is) (f ()) (k is) R) :
    Mirrors (emitReceiver >>= f) (Generate.receiver >>= k) c R := by
  have hreceiver : Mirrors emitReceiver Generate.receiver c
      fun _ c' is => c'.At owner ts s (ps ++ written is) := by
    refine resolve h (fun fault c' hreported => mistake_errors_ne hreported _) fun access c' h' => ?_
    cases access with
    | local_ slot => exact last (emit h' trivial fun c'' h'' => pure h'')
    | upvalue index => exact last (emit h' trivial fun c'' h'' => pure h'')
    | global _ | property _ => exact of_error rfl (mistake_errors_ne h'.reported _)
  exact bind hreceiver fun _ c' is h' => hf is c' h'

theorem declare {f k} {x : String} (hf : MirrorsAt owner ts s ps (f ()) (k ()) R) :
    Mirrors (Compile.declare x >>= f) (Generate.declare x >>= k) c R := by
  have hcompile := declare_apply x c
  have hgenerate := Generate.declare_apply x c.scopes.outline
  rw [show c.scopes.outline.current.declare x = _ from c.scopes.current.outline_declare x] at hgenerate
  cases hdeclare : c.scopes.current.declare x with
  | error fault =>
    rw [hdeclare] at hcompile hgenerate
    refine fail hgenerate ?_
    rw [hcompile]
    exact mistake_errors_ne h.reported _
  | ok scope =>
    rw [hdeclare] at hcompile hgenerate
    refine change (b := ()) ?_ ?_
    · rw [hcompile, hgenerate]
      rfl
    · rw [hcompile]
      exact hf _ (h.withScopes (h.wrote.idle (.of_desk (Scope.desk_declare hdeclare) rfl)))

theorem rescope {f : Unit → Compile γ} {k : Unit → Generate δ} {x : Compile Unit}
    {F G : Scopes → Scopes} (hx : x c = ((), { c with scopes := F c.scopes }))
    (houtline : (F c.scopes).outline = G c.scopes.outline)
    (hdesk : (F c.scopes).current.desk = c.scopes.current.desk)
    (hdesk' : (F c.scopes).enclosing.map Scope.desk = c.scopes.enclosing.map Scope.desk)
    (hf : ∀ c', c'.scopes = F c.scopes → c'.At owner ts s ps → Mirrors (f ()) (k ()) c' R) :
    Mirrors (x >>= f) (modify G >>= k) c R := by
  refine change (b := ()) ?_ ?_
  · rw [hx]
    exact congrArg (fun σ => Except.ok ((), σ)) houtline.symm
  · rw [hx]
    exact hf _ rfl (h.withScopes (h.wrote.idle (.of_desk hdesk hdesk')))

theorem define {f : Unit → Compile γ} {k : Unit → Generate δ}
    (hf : MirrorsAt owner ts s ps (f ()) (k ()) R) : Mirrors (Compile.define >>= f) (modify Scopes.define >>= k) c R :=
  rescope (F := Scopes.define) h rfl (c.scopes.outline_onCurrent c.scopes.current.outline_define)
    c.scopes.current.desk_define rfl fun c' _ h' => hf c' h'

theorem beginBlock {f : Unit → Compile γ} {k : Unit → Generate δ} (hf : MirrorsAt owner ts s ps (f ()) (k ()) R) :
    Mirrors (Compile.beginBlock >>= f) (modify Scopes.beginBlock >>= k) c R :=
  rescope (F := Scopes.beginBlock) h rfl rfl rfl rfl fun c' _ h' => hf c' h'

theorem endBlock {f k} (hf : ∀ is, MirrorsAt owner ts s (ps ++ written is) (f ()) (k is) R) :
    Mirrors (Compile.endBlock >>= f) (Generate.endBlock >>= k) c R := by
  have hgenerate : Generate.endBlock c.scopes.outline
      = .ok ((c.scopes.current.deeperThan (c.scopes.current.depth - 1)).map Local.leave,
          (c.scopes.endBlock c.previous.line).outline) := by
    have houtline := congrArg (fun o => Scopes.mk o (c.scopes.enclosing.map Scope.outline))
      (c.scopes.current.outline_endBlock c.previous.line)
    exact congrArg (fun σ => Except.ok (_, σ)) houtline.symm
  refine change hgenerate (hf _ _ (h.withScopes ?_))
  exact (h.wrote.trans (.emitAll c.scopes (Local.legible_leave _) c.previous.line)).idle (.of_desk rfl rfl)

theorem discardAbove {f k} {depth : Int} (hf : ∀ is, MirrorsAt owner ts s (ps ++ written is) (f ()) (k is) R) :
    Mirrors (Compile.discardAbove depth >>= f) (Generate.leaving depth >>= k) c R := by
  have hgenerate : Generate.leaving depth c.scopes.outline
      = .ok ((c.scopes.current.deeperThan depth).map Local.leave,
          (c.scopes.discardAbove depth c.previous.line).outline) := by
    rw [Scopes.discardAbove, c.scopes.outline_onCurrent (g := id)
      (c.scopes.current.outline_emitAll _ c.previous.line)]
    rfl
  exact change hgenerate
    (hf _ _ (h.withScopes (h.wrote.trans (.emitAll c.scopes (Local.legible_leave _) c.previous.line))))

/-! ### Functions -/

theorem enterFunction {f k kind} {x : String} (hf : ∀ c', c'.scopes = (c.scopes.enter kind x owner).beginBlock →
      c'.At owner ts c'.scopes [] → Mirrors (f ()) (k ()) c' R) :
    Mirrors (Compile.enterFunction kind x >>= fun _ => Compile.beginBlock >>= f)
      (modify (fun s => (s.enter kind x owner).beginBlock) >>= k) c R := by
  have henter : ((Compile.enterFunction kind x >>= fun _ => Compile.beginBlock) : Compile Unit) c
      = ((), { c with scopes := (c.scopes.enter kind x owner).beginBlock }) := by
    rw [← h.owner_eq]
    rfl
  have houtline : ((c.scopes.enter kind x owner).beginBlock).outline
      = (c.scopes.outline.enter kind x owner).beginBlock := by
    rw [← c.scopes.outline_enter]
    rfl
  show Mirrors ((Compile.enterFunction kind x >>= fun _ => Compile.beginBlock) >>= f) _ c R
  refine change (b := ()) ?_ ?_
  · rw [henter]
    exact congrArg (fun σ => Except.ok ((), σ)) houtline.symm
  · rw [henter]
    exact hf _ rfl ⟨h.errors, h.recovering, h.owner_eq, h.ahead, .refl _⟩

end

theorem leaveFunction {f : Unit → Compile γ} {k : List Instruction → Generate δ}
    {kind : RoutineKind} {x : String} {inner outer : Scopes} {qs : List Piece}
    (hinner : inner = (outer.enter kind x owner).beginBlock) (h : c.At owner ts inner qs) (houter : s.Wrote ps outer)
    (hf : ∀ is, MirrorsAt owner ts s (ps ++ written is) (f ()) (k is) R) : Mirrors (Compile.leaveFunction >>= f)
      (do
        let finished := (← get).current
        modify Scopes.left
        let index ← pool (.routine (finished.finish (Pieces.encode qs)))
        k [.closure index finished.captures.toList]) c R := by
  simp only [Compile.leaveFunction, emitReturnNil, bind_assoc]
  refine emit h trivial fun c1 h1 => emit h1 trivial fun c2 h2 => look ?_
  have hbytes : c2.scopes.current.draft.bytes.toList
      = Pieces.encode qs ++ Instruction.pushNil.encode ++ Instruction.ret.encode := by
    rw [h2.wrote.bytes, hinner]
    simp [Pieces.encode, Scopes.enter, Scopes.beginBlock, Scopes.onCurrent, Scope.start, Scope.beginBlock]
  have hroutine : (Constant.routine c2.scopes.current.toRoutine).withoutLines
      = .routine (c2.scopes.outline.current.finish (Pieces.encode qs)) := by
    rw [Constant.withoutLines, Scope.withoutLines_toRoutine hbytes]
    rfl
  have hleft : outer.Wrote [] c2.scopes.left := h2.wrote.left (by rw [hinner]; rfl)
  have h3 : { c2 with scopes := c2.scopes.left }.At owner ts s ps :=
    ⟨h2.errors, h2.recovering, h2.owner_eq, h2.ahead, houter.idle hleft⟩
  have hlogged : c2.scopes.current.toRoutine.Logged := h2.wrote.logged (by rw [hinner]; rfl)
  have hconstant := pooling (f := fun index =>
      Compile.emit (.closure index c2.scopes.current.captures.toList) >>= f)
    (m := fun index => k [.closure index c2.scopes.outline.current.captures.toList])
    (k := .routine c2.scopes.current.toRoutine) (R := R) (fun q hq => Constant.routine.inj hq ▸ hlogged) h3
    fun index c' h' hlast => emit h' ⟨(hlast rfl).1, _, (hlast rfl).2, Array.length_toList⟩ fun c'' h'' => hf _ c'' h''
  rw [hroutine] at hconstant
  refine congr ?_ ?_ hconstant
  · rfl
  · exact Generate.bind_eq_of_ok (congrArg (fun σ => Except.ok ((), σ)) c2.scopes.outline_left.symm)

/-! ### Loops -/

theorem beginLoop {f is} {continueAt : Nat} (h : c.At owner ts s (written is))
    (hf : MirrorsAt owner ts (s.openLoop ⟨continueAt, c.scopes.current.depth, #[]⟩) (written is) (f ()) g R) :
    Mirrors (Compile.beginLoop continueAt >>= f) g c R :=
  step rfl (hf _ ⟨h.errors, h.recovering, h.owner_eq, h.ahead, h.wrote.openLoop _⟩)

theorem addBreak {f} (h : c.At owner ts s (ps ++ [.write (.jump maxWord)]))
    (hoperand : operand = s.here + Pieces.size ps + 1) (hf : MirrorsAt owner ts s (ps ++ [.break_]) (f ()) g R) :
    Mirrors (Compile.addBreak operand >>= f) g c R := by
  subst hoperand
  exact step (c.scopes.outline_addBreak _) (hf _ (h.withScopes h.wrote.addBreak))

theorem patchBreaks {f k} {body : List Piece} {before behind}
    (h : c.At owner ts s (written (before ++ body.map Piece.instruction ++ behind)))
    (hf : ∀ is, MirrorsAt owner ts s (written (before ++ is ++ behind)) (f ()) (k is) R) :
    Mirrors ((Pieces.breaks (s.here + Code.length before) body).forM Compile.patchJump >>= f)
      (aim (Code.length behind) body >>= k) c R := by
  induction body generalizing c before k with
  | nil => exact hf [] c h
  | cons p ps ih =>
    cases p with
    | write i =>
      have hbreaks : Pieces.breaks (s.here + Code.length before) (.write i :: ps)
          = Pieces.breaks (s.here + Code.length (before ++ [i])) ps := by
        rw [Pieces.breaks, Code.length_append, Nat.add_assoc]
        rfl
      rw [hbreaks, aim, bind_assoc]
      have hbefore : c.At owner ts s (written (before ++ [i] ++ ps.map Piece.instruction ++ behind)) := by
        simpa [Piece.instruction] using h
      refine ih hbefore fun is c' h' => ?_
      rw [pure_bind]
      exact hf _ c' (by simpa using h')
    | break_ =>
      show Mirrors ((Compile.patchJump (s.here + Code.length before + 1) >>= fun _ =>
        (Pieces.breaks (s.here + Code.length before + 3) ps).forM Compile.patchJump) >>= f) _ c R
      rw [aim, bind_assoc, bind_assoc]
      refine patchJump ⟨.inl rfl⟩ (written before) (written (ps.map Piece.instruction ++ behind))
        (by simpa [Piece.instruction] using h) (by simp) (by simp [Pieces.length_map_instruction]) fun c' h' => ?_
      generalize Pieces.size ps + Code.length behind = distance at h' ⊢
      have hbreaks : Pieces.breaks (s.here + Code.length before + 3) ps
          = Pieces.breaks (s.here + Code.length (before ++ [.jump distance])) ps := by
        rw [Code.length_append, Nat.add_assoc]
        rfl
      have hbefore : c'.At owner ts s (written (before ++ [.jump distance] ++ ps.map Piece.instruction ++ behind)) := by
        simpa using h'
      rw [hbreaks, bind_assoc]
      refine ih (k := fun is => Pure.pure (.jump distance :: is) >>= k) hbefore fun is c'' h'' => ?_
      rw [pure_bind]
      exact hf _ c'' (by simpa using h'')

theorem endLoop {f k} {l : Loop} (hl : l.breaks = #[]) {body} (before behind : List Instruction)
    (h : c.At owner ts (s.openLoop l) (written before ++ body ++ written behind))
    (hf : ∀ is, MirrorsAt owner ts s (written (before ++ is ++ behind)) (f ()) (k is) R) :
    Mirrors (Compile.endLoop >>= f) (aim (Code.length behind) body >>= k) c R := by
  have hloops : c.scopes.current.loops
      = { l with breaks := (Pieces.breaks (s.here + Code.length before) body).toArray } ::
          s.current.loops := by
    have hhere : (s.openLoop l).here = s.here := rfl
    rw [h.wrote.loops, hhere]
    simp [Scopes.openLoop, Scopes.onCurrent, addBreaks, hl]
  have hend : (Compile.endLoop >>= f) c
      = ((Pieces.breaks (s.here + Code.length before) body).forM Compile.patchJump >>= f)
          { c with scopes := c.scopes.closeLoop } := by
    have hforM : ∀ operands : List Nat,
        (operands.toArray.forM Compile.patchJump : Compile Unit) = operands.forM Compile.patchJump :=
      fun operands => List.forM_toArray' _ _ rfl
    have hclose : c.scopes.closeLoop
        = c.scopes.onCurrent fun scope => { scope with loops := s.current.loops } :=
      congrArg (fun loops => c.scopes.onCurrent fun scope => { scope with loops := loops })
        (congrArg List.tail hloops)
    rw [← hforM, hclose]
    rw [Compile.endLoop, bind_assoc, bind_apply, show scope c = (c.scopes.current, c) from rfl, hloops]
    rfl
  have hclosed : { c with scopes := c.scopes.closeLoop }.At owner ts s
      (written (before ++ body.map Piece.instruction ++ behind)) := by
    refine ⟨h.errors, h.recovering, h.owner_eq, h.ahead, ?_⟩
    have hwrote := h.wrote.closeLoop
    simp only [List.map_append, map_instruction_written] at hwrote
    exact hwrote
  exact congr hend rfl (patchBreaks hclosed hf)

end Mirrors

end Compile

end Mudscript
