import Mudscript.Proofs.Rendering.Statement

/-!
# Whole expressions and whole scripts

What was shown of the parts of a compilation, for a whole expression in any state of a compilation and
for a whole script. A script whose tokens are a rendering of some declarations compiles to the routine
that is generated from the declarations, and fails to compile if none is generated.
-/

namespace Mudscript

variable {script : Declarations} {kinds : List TokenKind} {source : String}

/-! ### Scanning -/

/-- The source text scans without a fault into tokens of these kinds. -/
def Scans (source : String) (kinds : List TokenKind) : Prop :=
  ∃ tokens, (Tokens.ofSource source).strict = .ok tokens ∧
    tokens.map Token.kind = kinds ++ [.endOfText]

theorem scans_iff : Scans source kinds ↔ (Tokens.ofSource source).items.map lexedKind? = kinds.map some :=
  Tokens.strict_map_iff (g := lexedKind?) (fun _ => rfl) fun _ => rfl

theorem Tokens.ofSource_ne_endOfText (source : String) :
    some TokenKind.endOfText ∉ (Tokens.ofSource source).items.map lexedKind? := by
  intro hmem
  obtain ⟨item, hitem, hkind⟩ := List.mem_map.mp hmem
  cases item with
  | error e => cases hkind
  | ok t =>
    obtain ⟨text, hspells⟩ := (ofSource_reads source).spells hitem
    exact hspells.ne_endOfText (Option.some.inj hkind)

/-! ### The start of a compilation -/

namespace Compiler

theorem start_at {tokens : Tokens} (hkinds : tokens.items.map lexedKind? = kinds.map some)
    (hend : some TokenKind.endOfText ∉ tokens.items.map lexedKind?) (scope : Scope) :
    (start tokens scope).At scope.owner kinds ⟨scope, []⟩ [] := by
  obtain ⟨items, endLine⟩ := tokens
  cases kinds with
  | nil =>
    obtain rfl : items = [] := List.map_eq_nil_iff.mp hkinds
    exact ⟨rfl, rfl, rfl, ⟨rfl, rfl⟩, .refl _⟩
  | cons kind kinds =>
    cases items with
    | nil => cases hkinds
    | cons item items =>
      obtain ⟨hkind, hrest⟩ := List.cons.inj hkinds
      cases item with
      | error e => cases hkind
      | ok t =>
        rw [List.map_cons, List.mem_cons, not_or] at hend
        refine ⟨rfl, rfl, rfl, ⟨hkind, fun heq => hend.1 ?_, hrest, fun hmem => hend.2 (hrest ▸ hmem)⟩,
          .refl _⟩
        exact congrArg some heq.symm

end Compiler

open Compile (Mirrors)

/-! ### Expressions -/

/-- Compiling a rendering of an expression appends the code generated from its tree, takes the tokens
of the rendering and no more, and leaves names, captures and constants as generating leaves them. If no
code is generated because of a mistake then a mistake is reported. -/
theorem expression_appends_code {e : Expression} {ts rest : List TokenKind} {c : Compiler} {bound m : Nat}
    (h : Derives true (.expression .assignment) e ts) (hrest : Stops .assignment rest)
    (hbound : ts.length ≤ bound) (hm : ts.length ≤ m + 1) (herrors : c.errors = #[])
    (hrecovering : c.recovering = false) (hahead : c.Ahead ((ts ++ rest).map some)) :
    let c' := (Compile.expression bound (.upTo m) c).2
    match e.code c.owner c.scopes.outline with
    | .ok (code, s) =>
      c'.errors = #[] ∧ c'.recovering = false ∧ c'.Ahead (rest.map some) ∧ c'.scopes.outline = s ∧
        c'.scopes.current.draft.bytes.toList
          = c.scopes.current.draft.bytes.toList ++ code.flatMap Instruction.encode ∧
        c'.scopes.current.loops = c.scopes.current.loops ∧
        c'.scopes.enclosing.map Scope.work = c.scopes.enclosing.map Scope.work
    | .error _ => c'.errors ≠ #[] := by
  have hat : c.At c.owner (ts ++ rest) c.scopes [] := ⟨herrors, hrecovering, rfl, hahead, .refl _⟩
  have hmirrors := (h.follows c.owner).precedence hbound hm (by decide) hrest hat
  dsimp only
  unfold Mirrors at hmirrors
  split
  · rename_i code s hcode
    rw [hcode] at hmirrors
    obtain ⟨houtline, hend⟩ := hmirrors
    have hwrote := hend.wrote
    rw [List.nil_append] at hwrote
    refine ⟨hend.errors, hend.recovering, hend.ahead, houtline, ?_, ?_, Scopes.map_work_eq hwrote.around⟩
    · rw [← Pieces.encode_written]
      exact hwrote.bytes
    · have hloops := hwrote.loops
      rwa [Pieces.breaks_written, addBreaks_nil] at hloops
  · rename_i hcode
    rw [hcode] at hmirrors
    exact hmirrors

/-- `a += b * (c - nil) && d;` inside a block with the locals `a` to `d`. -/
theorem expression_appends_code_compound :
    let locals : List Local := [⟨"d", 1, false⟩, ⟨"c", 1, false⟩, ⟨"b", 1, false⟩, ⟨"a", 1, false⟩, ⟨"", 0, false⟩]
    let scope : Scope := { kind := .script, name := "", owner := none, locals, depth := 1 }
    let kinds : List TokenKind := [.name "a", .symbol .plusEqual, .name "b", .symbol .star, .symbol .leftParen,
      .name "c", .symbol .minus, .keyword .nil, .symbol .rightParen, .symbol .and, .name "d", .symbol .semicolon]
    let c := Compiler.start ⟨kinds.map fun k => .ok ⟨k, "", 1⟩, 1⟩ scope
    let c' := (Compile.expression 11 (.upTo 10) c).2
    c'.errors = #[] ∧ c'.current.kind = .symbol .semicolon ∧
      c'.scopes.current.draft.bytes.toList = [.getLocal 1, .getLocal 2, .getLocal 3, .pushNil, .subtract,
        .multiply, .jumpIfFalse 3, .pop, .getLocal 4, .add, .setLocal 1].flatMap Instruction.encode := by
  intro locals scope kinds c
  have htree : Derives true (.expression .assignment)
      (.assign "a" .add (.and (.binary .multiply (.name "b") (.binary .subtract (.name "c") (.literal .nil)))
        (.name "d"))) kinds.dropLast := by
    have hinner := @Derives.binary true .subtract _ _ _ _ (.loosen (by decide) (.name (x := "c") (by decide)))
      (.loosen (by decide) (.literal .nil))
    have hproduct := @Derives.binary true .multiply _ _ _ _
      (.loosen (by decide) (.name (x := "b") (by decide)))
      (.loosen (by decide) (.group (.loosen (by decide) hinner)))
    exact .assign (by decide) (.loosen (by decide) (.and (.loosen (by decide) hproduct)
      (.loosen (by decide) (.name (x := "d") (by decide)))))
  have happends := @expression_appends_code _ _ [.symbol .semicolon] c 11 10 htree
    (.of_precedence rfl rfl) (by decide) (by decide) rfl rfl ⟨rfl, by decide, rfl, by decide⟩
  obtain ⟨herrors, _, hahead, _, hbytes, _⟩ := happends
  exact ⟨herrors, Option.some.inj hahead.1, hbytes⟩

/-! ### Scripts -/

theorem separates_accept_endOfText (owner : Option String) : Separates owner (Compile.accept .endOfText) [] where
  continues := by
    intro c k ts s ps hat _
    show (if decide (c.current.kind = .endOfText) = true then _ else _ : Compile Bool) c = _
    rw [decide_eq_false hat.ahead.2.1]
    rfl
  ends := by
    intro c s ps hat
    refine ⟨c.moveTo [], ?_, rfl, hat.errors, hat.recovering, hat.owner_eq, ⟨rfl, rfl⟩, hat.wrote⟩
    show (if decide (c.current.kind = .endOfText) = true then _ else _ : Compile Bool) c = _
    rw [decide_eq_true hat.ahead.1, ← hat.ahead.2]
    rfl
  noElse := nofun

theorem script_mirrors {ts : List TokenKind} {owner} {bound : Nat}
    {c : Compiler} {s : Scopes} (h : Derives true .declarations script ts) (hbound : ts.length ≤ bound)
    (hat : c.At owner ts s []) (hsite : c.scopes.AtSite none) :
    Mirrors (Compile.script bound (.upTo bound)) (script.code owner none) c fun _ c' qs =>
      c'.At owner [] s (qs ++ written [.pushNil, .ret]) := by
  have hat' : c.At owner (ts ++ []) c.scopes [] := by simpa using hat.self
  refine .done (.bind (h.follows owner
    (x := Compile.declaration bound (.upTo bound)) (fun _ => ⟨bound, bound, rfl, hbound, by omega⟩) hbound
    (separates_accept_endOfText owner) hat' hsite) fun _ c1 qs h1 => ?_)
  exact .emit (hat.trans h1) trivial fun c2 h2 => .last (.emit h2 trivial fun c3 h3 => .pure (by simpa using h3))

theorem run_of_mirrors {α : Type} (scope : Scope)
    (body : Nat → Grammar → Compile Unit) {g : Generate α} {written : α → List Piece} (hscan : Scans source kinds)
    (houtline : scope.outline = scope) (hdraft : scope.draft = {})
    (hmirrors : ∀ {bound : Nat} {c : Compiler}, kinds.length ≤ bound → c.scopes = ⟨scope, []⟩ →
      c.At scope.owner kinds ⟨scope, []⟩ [] → Mirrors (body bound (.upTo bound)) g c fun _ c' a =>
        c'.At scope.owner [] ⟨scope, []⟩ (written a)) : match g ⟨scope, []⟩ with
    | .ok (a, σ) => ∃ s : Scope, Compile.run source scope body = .ok s.toRoutine ∧ s.outline = σ.current ∧
        s.draft.bytes.toList = scope.draft.bytes.toList ++ Pieces.encode (written a) ∧ s.toRoutine.Logged
    | .error _ => ∃ errors, Compile.run source scope body = .error errors := by
  have hitems := scans_iff.mp hscan
  have hlength : kinds.length = (Tokens.ofSource source).items.length := by
    have := congrArg List.length hitems
    simpa using this.symm
  have hscopes : (Compiler.start (Tokens.ofSource source) scope).scopes = ⟨scope, []⟩ := Compiler.moveTo_scopes _ _
  have hmirrors := @hmirrors ((Tokens.ofSource source).items.length + 1) _ (by omega) hscopes
    (Compiler.start_at hitems (Tokens.ofSource_ne_endOfText source) scope)
  have hstart : (⟨scope, []⟩ : Scopes).outline = ⟨scope, []⟩ := congrArg (fun s => Scopes.mk s []) houtline
  rw [Mirrors, hscopes, hstart] at hmirrors
  rw [Compile.run, Compile.last]
  cases hcode : g ⟨scope, []⟩ with
  | error m =>
    rw [hcode] at hmirrors
    rw [if_neg (by simpa [Array.isEmpty_iff] using hmirrors)]
    exact ⟨_, rfl⟩
  | ok result =>
    rw [hcode] at hmirrors
    obtain ⟨houtline, hend⟩ := hmirrors
    rw [if_pos (by rw [hend.errors]; rfl)]
    exact ⟨_, rfl, congrArg Scopes.current houtline, hend.wrote.bytes, hend.wrote.logged hdraft⟩

/-- A script compiles to the routine generated from its tree, and otherwise not at all. -/
theorem compileScript_of_derives (name : String) (hscan : Scans source kinds)
    (h : Derives true .declarations script kinds) : match script.generate name with
    | .ok r => ∃ r', compileScript name source = .ok r' ∧ r'.withoutLines = r ∧ r'.Logged
    | .error _ => ∃ errors, compileScript name source = .error errors := by
  have hcompiled := run_of_mirrors (.start .script name none) Compile.script hscan
    (Scope.outline_start _ _ _) rfl fun hbound hscopes hat => script_mirrors h hbound hat (by rw [hscopes]; rfl)
  rw [Declarations.generate, StateT.run]
  cases hcode : script.code none none ⟨.start .script name none, []⟩ with
  | error m =>
    rw [show (Scope.start .script name none).owner = none from rfl, hcode] at hcompiled
    exact hcompiled
  | ok result =>
    rw [show (Scope.start .script name none).owner = none from rfl, hcode] at hcompiled
    obtain ⟨s, hrun, houtline, hbytes, hlogged⟩ := hcompiled
    refine ⟨_, hrun, (Scope.withoutLines_toRoutine ?_).trans (by rw [houtline]), hlogged⟩
    rw [hbytes, Pieces.encode_append, List.append_assoc]
    rfl

end Mudscript
