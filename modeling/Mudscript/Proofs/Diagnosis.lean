import Mudscript.Proofs.Units

/-!
# How a compilation ends

A `Target` is what a text is compiled to: a script, or the unit of an object. Whatever the text is, the
compilation of it ends by itself, as every repetition in it takes a token each time and stops at the end of
the text (`Target.ends_by_itself`), and what was wrong with the text is told in the order of its lines
(`Target.tells_what_was_wrong`). One that finds nothing wrong leaves every block it begins, and a jump out of
blocks takes the variables of these blocks off the stack (`Target.leaves_blocks`).
-/

namespace Mudscript

open Compile

inductive Target
  | script (name : String)
  | object (path : String)

namespace Target

def compile : Target → String → Except CompileErrors Routine
  | .script name => compileScript name
  | .object path => compileObject path

def last : Target → String → Compiler
  | .script name, source => Compile.last source (.start .script name none) Compile.script
  | .object path, source =>
    Compile.last source (.start .object path (some path)) fun bound g => objectUnit bound g path

variable (t : Target) (source : String)

theorem compile_eq : t.compile source = if (t.last source).errors.isEmpty
    then .ok (t.last source).scopes.current.toRoutine else .error (t.last source).errors := by
  cases t <;> rfl

theorem last_orderly : (t.last source).Orderly false := by
  cases t with
  | script name => exact last_script_orderly name source
  | object path => exact last_object_orderly path source

theorem last_candid : (t.last source).Candid := by
  cases t with
  | script name =>
    exact ((Compile.script _ _).leads _).candid (Compiler.start_reported _ _) (Compiler.start_candid _ _)
  | object path =>
    exact ((objectUnit _ _ path).leads _).candid (Compiler.start_reported _ _) (Compiler.start_candid _ _)

theorem scans_of_compile {r : Routine} (h : t.compile source = .ok r) : ∃ kinds, Scans source kinds := by
  cases t with
  | script name =>
    obtain ⟨kinds, _, hscan, _⟩ := derives_of_compileScript h
    exact ⟨kinds, hscan⟩
  | object path =>
    obtain ⟨kinds, _, hscan, _⟩ := derives_of_compileObject h
    exact ⟨kinds, hscan⟩

end Target

/-! ### Repetitions -/

/-- What compilation repeats as long as it answers `true`, with the constructs inside it compiled at any
depth. -/
inductive Repeated : Compile Bool → Prop
  | skipped : Repeated skip
  | declarations (bound : Nat) (g : Grammar) : Repeated (scriptDeclaration bound g)
  | block (depth : Nat) : Repeated do
      if ← atBlockEnd then return false
      Grammar.upTo (depth + 1) .declaration
      return true
  | variableList (bound : Nat) (g : Grammar) : Repeated (anotherVariable bound g)
  | parameters : Repeated parameter
  | arguments (g : Grammar) (count : Nat) : Repeated do
      let _ ← argument g count
      accept (.symbol .comma)
  | operations (bound : Nat) (g : Grammar) {minimum : Precedence} (canAssign : Bool) : minimum ≠ .none →
      Repeated (operation bound g minimum canAssign)
  | parents (bound : Nat) : Repeated (inheritDeclaration bound)
  | members (bound : Nat) (g : Grammar) : Repeated (memberDeclaration bound g)
  | fields (bound : Nat) (g : Grammar) : Repeated (anotherField bound g)

theorem Repeated.takes {body : Compile Bool} (h : Repeated body) (n : Nat) : Takes n body := by
  cases h with
  | skipped => exact skip_takes
  | declarations => exact scriptDeclaration_takes
  | block => exact blockDeclaration_takes fun _ _ h => declaration_takes h
  | variableList => exact .accepting (by decide)
  | parameters => exact parameter_takes
  | arguments => exact .bind fun _ => accept_takes (by decide)
  | operations _ _ canAssign hminimum => exact operation_takes hminimum canAssign
  | parents => exact .accepting (by decide)
  | members => exact memberDeclaration_takes
  | fields => exact .accepting (by decide)

theorem Compile.advance_atEnd {c : Compiler} (h : c.ahead = 0) :
    (advance c).2.ahead = 0 ∧ (advance c).2.current.kind = .endOfText := by
  obtain ⟨hunread, -⟩ := Nat.add_eq_zero_iff.mp h
  have hmove : (advance c).2 = c.moveTo [] := congrArg c.moveTo (List.length_eq_zero_iff.mp hunread)
  rw [hmove]
  exact ⟨rfl, rfl⟩

/-- A compilation reaches none of the bounds of its repetitions and of its nesting, so the bounds cut nothing
off. Each reading takes a character or finds the end of the text, and finds it again from then on. Moving on
at the last token stays there. Each repetition takes a token, and stops behind the last one. -/
theorem Target.ends_by_itself (t : Target) (source : String) : (t.last source).exhausted = false ∧
      (∀ cursor : Cursor,
        (∃ lexed after, cursor.next = .item lexed after ∧ after.ahead.length < cursor.ahead.length) ∨
          ∃ line, cursor.next = .finished line ∧ Cursor.next ⟨[], line⟩ = .finished line) ∧
      (∀ c : Compiler, c.ahead = 0 → (advance c).2.ahead = 0 ∧ (advance c).2.current.kind = .endOfText) ∧
      ∀ body, Repeated body → ∀ c : Compiler,
        ((body c).1 = true → (body c).2.ahead < c.ahead) ∧ (c.ahead = 0 → (body c).1 = false) := by
  refine ⟨(t.last_orderly source).unexhausted, fun cursor => ?_, fun c => advance_atEnd, fun body hbody c => ?_⟩
  · cases hnext : cursor.next with
    | finished line => exact .inr ⟨line, rfl, rfl⟩
    | item lexed after => exact .inl ⟨lexed, after, rfl, Cursor.next_shorter hnext⟩
  · have htakes := hbody.takes _ c (Nat.lt_succ_self _)
    refine ⟨htakes, fun hend => Bool.eq_false_iff.mpr fun hanswer => ?_⟩
    exact Nat.not_lt_zero _ (hend ▸ htakes hanswer)

/-! ### Errors -/

/-- A compilation fails just when something was found wrong at some point of it. Whatever is reported, also
while the compilation recovers from an earlier mistake, counts as found to the end, and a fault in the text is
always found. What is then told is some of what was found, at least one mistake, in the order of the lines. -/
theorem Target.tells_what_was_wrong (t : Target) (source : String) :
    ((∃ errors, t.compile source = .error errors) ↔ (t.last source).noticed ≠ #[]) ∧
      (∀ (α : Type) (rest : Compile α) (c : Compiler) (e : CompileError), e ∈ (rest (c.report e)).2.noticed) ∧
      (∀ e, .error e ∈ (Tokens.ofSource source).items → (t.last source).noticed ≠ #[]) ∧
      ∀ errors, t.compile source = .error errors → errors ≠ #[] ∧
        errors.toList.Sublist (t.last source).noticed.toList ∧ errors.toList.Pairwise (·.line ≤ ·.line) := by
  have hcandid := t.last_candid source
  have hiff : (∃ errors, t.compile source = .error errors) ↔ (t.last source).noticed ≠ #[] := by
    rw [compile_eq]
    split
    · rename_i hempty
      refine ⟨nofun, fun h => absurd (Array.isEmpty_iff.mp hempty) (hcandid.1 h)⟩
    · rename_i hne
      refine ⟨fun _ hnone => hne ?_, fun _ => ⟨_, rfl⟩⟩
      have hsub := hcandid.2
      rw [hnone] at hsub
      exact Array.isEmpty_iff.mpr (Array.toList_inj.mp (List.sublist_nil.mp hsub))
  refine ⟨hiff, fun α rest c e => (rest.leads _).noticed e (c.mem_noticed_report e), fun e he => hiff.mp ?_,
    fun errors h => ?_⟩
  · cases hcompile : t.compile source with
    | error errors => exact ⟨errors, rfl⟩
    | ok r =>
      obtain ⟨kinds, hscan⟩ := t.scans_of_compile source hcompile
      have hmem := List.mem_map_of_mem (f := lexedKind?) he
      rw [scans_iff.mp hscan] at hmem
      obtain ⟨kind, -, hkind⟩ := List.mem_map.mp hmem
      cases hkind
  · rw [compile_eq] at h
    split at h
    · cases h
    · rename_i hne
      cases h
      exact ⟨fun h => hne (h ▸ rfl), hcandid.2, (t.last_orderly source).sorted⟩

/-! ### Leaving blocks -/

namespace Compile

/-- What a compilation does to the scopes. -/
noncomputable def stepsOf (source : String) (scope : Scope) (body : Nat → Grammar → Compile Unit) : List Scopes.Step :=
  let tokens := Tokens.ofSource source
  let bound := tokens.items.length + 1
  ((body bound (.upTo bound)).steps (.start tokens scope)).value

theorem stepsOf_unwinds {source name : String} {kind : RoutineKind} {owner : Option String}
    {body : Nat → Grammar → Compile Unit} {Q : List Nest → Prop}
    (hnoticed : (last source (.start kind name owner) body).noticed = #[]) (hbody : ∀ {n bound g}, Ordered bound n g →
      Orders ⟨true, Site.Inside ⟨kind, [], []⟩⟩ ⟨false, Q⟩ (n + 1) (body bound g)) :
    Scopes.Unwinds (stepsOf source (.start kind name owner) body) := by
  have hscopes : (Compiler.start (Tokens.ofSource source) (.start kind name owner)).scopes
      = ⟨.start kind name owner, []⟩ :=
    Compiler.moveTo_scopes _ _
  have hnested : (Compiler.start (Tokens.ofSource source) (.start kind name owner)).scopes.Matched [.start kind] := by
    rw [hscopes]
    refine .cons ⟨rfl, rfl, ?_⟩ .nil
    cases kind <;> rfl
  obtain ⟨ns', htracks, _⟩ :=
    (last_orders hbody source _ (Compiler.start_orderly source _ rfl)).2 _ hnoticed hnested ⟨_, rfl⟩
  refine htracks.unwinds (Compile.joined _ _) hnested fun above inner _ b bs _ _ heq hbs => ?_
  cases above with
  | nil => exact absurd (Nest.eq_nil_of_start (List.cons.inj heq).1) hbs
  | cons _ above => simp at heq

end Compile

namespace Target

/-- What is done to the scopes while a text is compiled. -/
noncomputable def steps : Target → String → List Scopes.Step
  | .script name, source => Compile.stepsOf source (.start .script name none) Compile.script
  | .object path, source =>
    Compile.stepsOf source (.start .object path (some path)) fun bound g => Compile.objectUnit bound g path

/-- In a text that compiles, blocks are left as they should be. -/
theorem leaves_blocks (t : Target) (source : String) (r : Routine) (h : t.compile source = .ok r) :
    Scopes.Unwinds (t.steps source) := by
  have hnoticed : (t.last source).noticed = #[] := by
    rw [compile_eq] at h
    split at h
    · rename_i hempty
      exact Decidable.byContradiction fun hne => (t.last_candid source).1 hne (Array.isEmpty_iff.mp hempty)
    · cases h
  cases t with
  | script name => exact Compile.stepsOf_unwinds hnoticed fun _ => (Compile.script_declares fun _ => rfl).anywhere
  | object path => exact Compile.stepsOf_unwinds hnoticed fun _ => Compile.objectUnit_orders path

set_option maxRecDepth 20000 in
/-- A loop that is left by a jump out of a block with a captured local in it. -/
theorem leaves_blocks_break :
    ∃ r, (script "main").compile "while(a){var x=a;{var y=x;b=function(){return x;};break;}}" = .ok r ∧
    Scopes.Unwinds ((script "main").steps "while(a){var x=a;{var y=x;b=function(){return x;};break;}}") := by
  have hok : ((script "main").compile "while(a){var x=a;{var y=x;b=function(){return x;};break;}}").isOk := by cbv
  cases h : (script "main").compile "while(a){var x=a;{var y=x;b=function(){return x;};break;}}" with
  | error e =>
    rw [h] at hok
    cases hok
  | ok r => exact ⟨r, rfl, leaves_blocks _ _ r h⟩

end Target

end Mudscript
