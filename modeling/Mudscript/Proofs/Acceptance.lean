import Mudscript.Proofs.Lawful
import Mudscript.Proofs.Recognition.Statement
import Mudscript.Proofs.Rendering.Script

/-!
# Which scripts compile

A text compiles if and only if it scans, its tokens are generated by the grammar, its tree keeps the
static rules, and its code stays within the limits of the code format.

The grammar leaves open which conditional an `else` belongs to, while the tree that the static rules and
the code refer to gives it to the nearest one. So both readings of the grammar have to generate the same
tokens. A tree of the free reading is rebuilt from the inside out: an `else` behind a statement that ends
in a conditional without one moves into that statement.
-/

namespace Mudscript

/-! ### Where an `else` belongs -/

/-- Gives an `else` behind a statement to the nearest conditional at its end that has none. -/
def Statement.attach : Statement → Statement → Statement
  | .ifThen e s, a => if s.endsOpen then .ifThen e (s.attach a) else .ifElse e s a
  | .ifElse e s b, a => .ifElse e s (b.attach a)
  | .while_ e s, a => .while_ e (s.attach a)
  | .for_ first condition step s, a => .for_ first condition step (s.attach a)
  | s, _ => s

namespace Derives

variable {nearest : Bool} {f : Form} {t : f.Tree} {ts : List TokenKind}

/-- A statement that ends in an open conditional takes an `else` behind it in. -/
theorem attach {a : Statement} {vs} (ha : Derives true .statement a vs) :
    ∀ {s : Statement} {us : List TokenKind}, Derives true .statement s us → s.endsOpen = true →
      Derives true .statement (s.attach a) (us ++ .keyword .else_ :: vs)
  | _, _, @ifThen _ e s ts us he hs, _ => by
    rw [Statement.attach]
    cases hopen : s.endsOpen with
    | true =>
      have hs' := ha.attach hs hopen
      simpa using he.ifThen hs'
    | false =>
      have hif := he.ifElse hs (fun _ => hopen) ha
      simpa using hif
  | _, _, ifElse he hs hclosed hb, hopen => by
    have hb' := ha.attach hb hopen
    simpa [Statement.attach] using he.ifElse hs hclosed hb'
  | _, _, while_ he hs, hopen => by
    have hs' := ha.attach hs hopen
    simpa [Statement.attach] using he.while_ hs'
  | _, _, for_ hfirst hcondition hstep hs, hopen => by
    have hs' := ha.attach hs hopen
    simpa [Statement.attach] using hfirst.for_ hcondition hstep hs'

theorem anyElse (h : Derives true f t ts) : Derives nearest f t ts := by
  induction h with
  | ifElse _ _ hclosed _ he hs ha => exact .ifElse he hs (fun _ => hclosed rfl) ha
  | unary _ ih => exact .unary ih
  | binary _ _ ihl ihr => exact .binary ihl ihr
  | and _ _ ihl ihr => exact .and ihl ihr
  | or _ _ ihl ihr => exact .or ihl ihr
  | assign hx _ ih => exact .assign hx ih
  | assignProperty hx _ _ ihe ihv => exact .assignProperty hx ihe ihv
  | _ => constructor <;> assumption

/-- Tokens of the grammar have a tree in which each `else` belongs to the nearest conditional. -/
theorem nearestElse (h : Derives false f t ts) : ∃ t', Derives true f t' ts := by
  induction h with
  | lambda _ ih =>
    obtain ⟨⟨ps, body⟩, h⟩ := ih
    exact ⟨_, .lambda h⟩
  | functionDeclaration hx _ ih =>
    obtain ⟨⟨ps, body⟩, h⟩ := ih
    exact ⟨_, .functionDeclaration hx h⟩
  | ifElse _ _ _ _ ihe ihs iha =>
    obtain ⟨e, he⟩ := ihe
    obtain ⟨s, hs⟩ := ihs
    obtain ⟨a, ha⟩ := iha
    cases hopen : s.endsOpen with
    | true => exact ⟨_, .ifThen he (ha.attach hs hopen)⟩
    | false => exact ⟨_, .ifElse he hs (fun _ => hopen) ha⟩
  | unary _ ih => exact ih.elim fun _ h => ⟨_, .unary h⟩
  | binary _ _ ih ih' => exact ih.elim fun _ h => ih'.elim fun _ h' => ⟨_, .binary h h'⟩
  | and _ _ ih ih' => exact ih.elim fun _ h => ih'.elim fun _ h' => ⟨_, .and h h'⟩
  | or _ _ ih ih' => exact ih.elim fun _ h => ih'.elim fun _ h' => ⟨_, .or h h'⟩
  | assign hx _ ih => exact ih.elim fun _ h => ⟨_, .assign hx h⟩
  | assignProperty hx _ _ ih ih' => exact ih.elim fun _ h => ih'.elim fun _ h' => ⟨_, .assignProperty hx h h'⟩
  | argument _ _ ih ih' => exact ih.elim fun _ h => ih'.elim fun _ h' => ⟨_, .argument h h'⟩
  | moreVariables hx _ _ ih ih' => exact ih.elim fun _ h => ih'.elim fun _ h' => ⟨_, .moreVariables hx h h'⟩
  | _ =>
    try casesm* ∃ _, _
    exact ⟨_, by constructor <;> assumption⟩

end Derives

/-! ### Scripts -/

theorem Scopes.see_start (name : String) : Scopes.See ⟨.start .script name none, []⟩ [⟨[], none⟩] :=
  ⟨.cons ⟨⟨rfl, rfl⟩, Nat.le_of_ble_eq_true rfl⟩ .nil, rfl⟩

/-- A script's code would exceed the code format: a function has too many constants or captures, or a
jump is too long. -/
def Declarations.ExceedsFormat (script : Declarations) (name : String) : Prop :=
  ∃ m : Mistake, m.IsLimit ∧ script.generate name = .error m

/-- Code is generated exactly for the scripts that keep the rules and fit the code format. -/
theorem Declarations.generates_iff (script : Declarations) (name : String) :
    (∃ r, script.generate name = .ok r) ↔ script.Lawful [] [] false ∧ ¬ script.ExceedsFormat name := by
  have hgenerate : script.generate name = script.code none none ⟨.start .script name none, []⟩ >>=
      fun result => pure (result.2.current.finish (Pieces.encode result.1)) := rfl
  have hjudged := script.code_judged [] [] (fun h => absurd rfl h) none _ (Scopes.see_start name)
  rw [Generate.Judges] at hjudged
  cases hcode : script.code none none ⟨.start .script name none, []⟩ with
  | ok result =>
    rw [hcode] at hgenerate hjudged
    refine iff_of_true ⟨_, hgenerate⟩ ⟨hjudged.1, ?_⟩
    rintro ⟨m, _, hm⟩
    cases hgenerate.symm.trans hm
  | error m =>
    rw [hcode] at hgenerate hjudged
    refine iff_of_false ?_ fun h => h.2 ⟨m, hjudged h.1, hgenerate⟩
    rintro ⟨r, hr⟩
    cases hgenerate.symm.trans hr

theorem compiles_iff_generates {name source : String} {kinds} {script : Declarations}
    (hscan : Scans source kinds) (h : Derives true .declarations script kinds) :
    (∃ r, compileScript name source = .ok r) ↔ ∃ r, script.generate name = .ok r := by
  have hcompiled := compileScript_of_derives name hscan h
  cases hgenerate : script.generate name with
  | ok r =>
    rw [hgenerate] at hcompiled
    obtain ⟨r', hr', _⟩ := hcompiled
    exact iff_of_true ⟨r', hr'⟩ ⟨r, rfl⟩
  | error m =>
    rw [hgenerate] at hcompiled
    obtain ⟨errors, herrors⟩ := hcompiled
    exact iff_of_false (fun ⟨_, hr⟩ => nomatch herrors.symm.trans hr) nofun

/-- The scripts that compile: the text scans, the tokens are generated by the grammar, and the tree in
which each `else` belongs to the nearest conditional keeps the static rules and fits the code format. -/
theorem compileScript_accepts_iff (name source : String) : (∃ r, compileScript name source = .ok r) ↔
      ∃ kinds, Scans source kinds ∧ (∃ script, Derives false .declarations script kinds) ∧
        ∀ script, Derives true .declarations script kinds →
          script.Lawful [] [] false ∧ ¬ script.ExceedsFormat name := by
  constructor
  · rintro ⟨r, hr⟩
    obtain ⟨kinds, script, hscan, hscript⟩ := derives_of_compileScript hr
    refine ⟨kinds, hscan, ⟨script, hscript.anyElse⟩, fun script hscript => ?_⟩
    exact (script.generates_iff name).mp ((compiles_iff_generates hscan hscript).mp ⟨r, hr⟩)
  · rintro ⟨kinds, hscan, ⟨tree, htree⟩, hrules⟩
    obtain ⟨script, hscript⟩ := htree.nearestElse
    exact (compiles_iff_generates hscan hscript).mpr ((script.generates_iff name).mpr (hrules script hscript))

end Mudscript
