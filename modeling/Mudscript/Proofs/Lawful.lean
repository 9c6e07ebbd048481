import Mudscript.Proofs.Mirror
import Mudscript.Proofs.Nesting

/-!
# The static rules

The rules that a script has to keep beyond its grammar, read off the tree alone: no two variables of one
name in one block, no use of a variable in its own initializer, no `break` or `continue` outside a loop,
no receiver outside an object, and no more arguments, parameters and variables than a call can hold. A
function starts anew: its parameters are the first variables of its body, and the loops around it are
not loops of its body.

Generating code fails for a tree that breaks a rule. A tree that keeps them all can only fail by a limit
of the code format: too many constants or captures in a function, or a jump that is too long. `Judges`
is the comparison of generating code with a rule, one step at a time.
-/

namespace Mudscript

open List

variable {clause : Option (Generate (List Instruction))} {x : String}

/-! ### Names in scope -/

structure Names where
  /-- The variables of each block, the innermost block and the newest variable first. -/
  blocks : List (List String)
  /-- The variable whose initializer this is. -/
  pending : Option String := none

abbrev Surroundings := List Names

/-- The variables of a function, and whether they can be used. Slot 0 belongs to the call and has no
name. -/
def Names.variables (f : Names) : List (String × Bool) :=
  f.pending.toList.map (·, false) ++ f.blocks.flatten.map (·, true) ++ [("", true)]

/-- A name that does not stand for a variable in its own initializer. -/
def Surroundings.Usable (E : Surroundings) (x : String) : Prop :=
  (E.flatMap Names.variables).lookup x ≠ some false

namespace Blocks

/-- A name can be declared: it is new in its block, and there is room for a variable. Outside every
block variables are global. -/
def Admits (x : String) : List (List String) → Prop
  | [] => True
  | b :: bs => x ∉ b ∧ (b :: bs).flatten.length + 1 < maxSlots

def declare (x : String) : List (List String) → List (List String)
  | [] => []
  | b :: bs => (x :: b) :: bs

def initializing (x : String) : List (List String) → Names
  | [] => ⟨[], none⟩
  | b :: bs => ⟨b :: bs, some x⟩

end Blocks

/-! ### Rules -/

/-- The variables of a function's blocks behind a declaration. -/
def Declarators.after : Declarators → List (List String) → List (List String)
  | .nil, bs => bs
  | .cons x _ rest, bs => rest.after (Blocks.declare x bs)

def Declaration.after : Declaration → List (List String) → List (List String)
  | .function x _ _, bs => Blocks.declare x bs
  | .variables vs, bs => vs.after bs
  | .statement _, bs => bs

def Declarations.after : Declarations → List (List String) → List (List String)
  | .nil, bs => bs
  | .cons d rest, bs => rest.after (d.after bs)

mutual

def Expression.Lawful (E : Surroundings) : Expression → Prop
  | .literal _ => True
  | .name x => E.Usable x
  | .assign x _ value => E.Usable x ∧ value.Lawful E
  | .unary _ e => e.Lawful E
  | .binary _ l r | .and l r | .or l r => l.Lawful E ∧ r.Lawful E
  | .call e a => e.Lawful E ∧ a.Lawful E ∧ a.length ≤ Compile.maxArguments
  | .callName x a => E.Usable x ∧ a.Lawful E ∧ a.length ≤ Compile.maxArguments
  | .property e _ => e.Lawful E
  | .assignProperty e _ _ value => e.Lawful E ∧ value.Lawful E
  | .invoke e _ a => e.Lawful E ∧ a.Lawful E ∧ a.length ≤ Compile.maxArguments
  | .this | .superCall _ _ => False
  | .lambda ps body => ps.length ≤ Compile.maxArguments ∧ ps.Nodup ∧ body.Lawful [ps.reverse] E false

def Arguments.Lawful (E : Surroundings) : Arguments → Prop
  | .nil => True
  | .cons e rest => e.Lawful E ∧ rest.Lawful E

def Clause.Lawful (E : Surroundings) : Clause → Prop
  | .none => True
  | .some e => e.Lawful E

def Declarators.Lawful (bs : List (List String)) (E : Surroundings) : Declarators → Prop
  | .nil => True
  | .cons x value rest =>
    Blocks.Admits x bs ∧ value.Lawful (Blocks.initializing x bs :: E) ∧ rest.Lawful (Blocks.declare x bs) E

/-- The rules for a statement in a function with these blocks, and with a loop around it or not. -/
def Statement.Lawful (bs : List (List String)) (E : Surroundings) (inLoop : Bool) : Statement → Prop
  | .expression e => e.Lawful (⟨bs, none⟩ :: E)
  | .block body => body.Lawful ([] :: bs) E inLoop
  | .ifThen e s => e.Lawful (⟨bs, none⟩ :: E) ∧ s.Lawful bs E inLoop
  | .ifElse e s a => e.Lawful (⟨bs, none⟩ :: E) ∧ s.Lawful bs E inLoop ∧ a.Lawful bs E inLoop
  | .while_ e s => e.Lawful (⟨bs, none⟩ :: E) ∧ s.Lawful bs E true
  | .for_ first condition step s =>
    first.Lawful ([] :: bs) E inLoop ∧ condition.Lawful (⟨first.after ([] :: bs), none⟩ :: E) ∧
      step.Lawful (⟨first.after ([] :: bs), none⟩ :: E) ∧ s.Lawful (first.after ([] :: bs)) E true
  | .return_ value => value.Lawful (⟨bs, none⟩ :: E)
  | .break_ | .continue_ => inLoop = true

def Declaration.Lawful (bs : List (List String)) (E : Surroundings) (inLoop : Bool) : Declaration → Prop
  | .function x ps body => Blocks.Admits x bs ∧ ps.length ≤ Compile.maxArguments ∧ ps.Nodup ∧
      body.Lawful [ps.reverse] (⟨Blocks.declare x bs, none⟩ :: E) false
  | .variables vs => vs.Lawful bs E
  | .statement s => s.Lawful bs E inLoop

def Declarations.Lawful (bs : List (List String)) (E : Surroundings) (inLoop : Bool) : Declarations → Prop
  | .nil => True
  | .cons d rest => d.Lawful bs E inLoop ∧ rest.Lawful (d.after bs) E inLoop

end

/-! ### What a declaration adds -/

theorem Blocks.declare_ne_nil {bs} (h : bs ≠ []) : declare x bs ≠ [] := by
  cases bs with
  | nil => exact absurd rfl h
  | cons b bs => exact nofun

theorem Declarators.after_cons (vs : Declarators) (b : List String) (bs : List (List String)) :
    ∃ b', vs.after (b :: bs) = b' :: bs := by
  match vs with
  | .nil => exact ⟨b, rfl⟩
  | .cons x _ rest => exact rest.after_cons (x :: b) bs

theorem Declaration.after_cons (d : Declaration) (b : List String) (bs : List (List String)) :
    ∃ b', d.after (b :: bs) = b' :: bs := by
  match d with
  | .function x _ _ => exact ⟨x :: b, rfl⟩
  | .variables vs => exact vs.after_cons b bs
  | .statement _ => exact ⟨b, rfl⟩

theorem Declaration.after_ne_nil (d : Declaration) {bs} (h : bs ≠ []) : d.after bs ≠ [] := by
  obtain ⟨b, bs, rfl⟩ := exists_cons_of_ne_nil h
  obtain ⟨b', hd⟩ := d.after_cons b bs
  exact hd ▸ nofun

theorem Declarations.after_cons (ds : Declarations) (b : List String) (bs : List (List String)) :
    ∃ b', ds.after (b :: bs) = b' :: bs := by
  match ds with
  | .nil => exact ⟨b, rfl⟩
  | .cons d rest =>
    obtain ⟨b', hd⟩ := d.after_cons b bs
    rw [after, hd]
    exact rest.after_cons b' bs

/-! ### Scopes that know the names -/

structure Scope.Sees (s : Scope) (f : Names) : Prop where
  nests : s.Nests (f.blocks ++ [[""]]) f.pending
  few : s.locals.length ≤ maxSlots

/-- The functions around a place: all but the outermost are functions, which is the script. -/
def outerKinds : Surroundings → List RoutineKind
  | [] => [.script]
  | _ :: E => .function :: outerKinds E

structure Scopes.See (σ : Scopes) (E : Surroundings) : Prop where
  sees : List.Forall₂ Scope.Sees (σ.current :: σ.enclosing) E
  kinds : (σ.current :: σ.enclosing).map Scope.kind = outerKinds E.tail

namespace Scope.Sees

variable {s s' : Scope} {f : Names}

theorem depth (h : s.Sees f) : s.depth = f.blocks.length := by
  have hdepth := h.nests.depth
  rw [length_append, length_singleton] at hdepth
  omega

theorem defined (h : s.Sees f) : s.locals.map (fun l => (l.name, l.isDefined)) = f.variables := by
  rw [h.nests.defined, Names.variables]
  simp

theorem touched (h : s.Sees f) (ht : s.Touched s') : s'.Sees f :=
  ⟨h.nests.touched ht, ht.locals_length ▸ h.few⟩

theorem touched_all {scopes scopes' E} (h : List.Forall₂ Sees scopes E)
    (ht : List.Forall₂ Touched scopes scopes') : List.Forall₂ Sees scopes' E := by
  induction ht generalizing E with
  | nil => exact h
  | cons ht _ ih =>
    cases h with
    | cons hs hrest => exact .cons (hs.touched ht) (ih hrest)

theorem slot? (h : s.Sees f) (x : String) : match f.variables.lookup x with
    | none => s.slot? x = .ok none | some true => ∃ slot, s.slot? x = .ok (some slot)
    | some false => s.slot? x = .error .ownInitializer := by
  rw [← h.defined]
  unfold Scope.slot?
  generalize s.locals = ls
  induction ls with
  | nil => rfl
  | cons l ls ih =>
    by_cases hl : l.name = x
    · subst hl
      rw [map_cons, lookup_cons_self, dropWhile_cons_of_neg (by simp)]
      cases hdefined : l.isDefined with
      | true => exact ⟨ls.length, by simp [hdefined]⟩
      | false => simp [hdefined]
    · have hne : (x == l.name) = false := by simpa using Ne.symm hl
      rw [map_cons, lookup_cons, hne, dropWhile_cons_of_pos (by simpa using hl)]
      exact ih

end Scope.Sees

theorem Surroundings.usable_cons {f : Names} {E : Surroundings} :
    Surroundings.Usable (f :: E) x ↔ (f.variables.lookup x).or ((E.flatMap Names.variables).lookup x)
      ≠ some false := by
  rw [Surroundings.Usable, flatMap_cons, lookup_append]

/-- The answer to the question what a name stands for is right: only a variable in its own initializer
is refused. -/
def Surroundings.Answers {α : Type} (E : Surroundings) (x : String) : Except ScopeFault α → Prop
  | .ok _ => E.Usable x
  | .error .tooManyUpvalues => True
  | .error _ => ¬ E.Usable x

theorem Surroundings.answers_addCapture {E : Surroundings} (h : E.Usable x) (s : Scope)
    (capture : Capture) : E.Answers x ((s.addCapture capture).1.map some) := by
  unfold Scope.addCapture
  split
  · exact h
  · split
    · trivial
    · exact h

theorem Scope.captureFrom_answers {s : Scope} {outer} {E : Surroundings}
    (h : List.Forall₂ Scope.Sees outer E) : E.Answers x (s.captureFrom x outer).1 := by
  induction h generalizing s with
  | nil => rintro ⟨⟩
  | @cons e f outer E he _ ih =>
    have hslot := he.slot? x
    rw [captureFrom]
    split at hslot
    · -- The name is not one of this function's.
      rename_i hlookup
      have husable : Surroundings.Usable (f :: E) x ↔ Surroundings.Usable E x := by
        rw [Surroundings.usable_cons, hlookup]
        rfl
      have hinner := ih (s := e)
      rw [hslot]
      dsimp only
      rcases hcapture : e.captureFrom x outer with ⟨fault | _ | above, e', outer'⟩ <;> rw [hcapture] at hinner
      · cases fault <;> first | trivial | exact fun hx => hinner (husable.mp hx)
      · exact husable.mpr hinner
      · exact Surroundings.answers_addCapture (husable.mpr hinner) s _
    · rename_i hlookup
      obtain ⟨slot, hslot⟩ := hslot
      rw [hslot]
      refine Surroundings.answers_addCapture ?_ s _
      rw [Surroundings.usable_cons, hlookup]
      simp
    · rename_i hlookup
      rw [hslot]
      intro husable
      rw [Surroundings.usable_cons, hlookup] at husable
      exact husable rfl

/-! ### Generating code and rules -/

def Mistake.IsLimit : Mistake → Prop
  | .code _ | .scope .tooManyUpvalues => True
  | _ => False

namespace Generate

variable {α β : Type} {P P' : Prop} {g : Generate α} {k : α → Generate β} {σ : Scopes}

/-- If code is generated then the rule `P` is kept and `Q` holds, and if the rule is kept then only a
limit can prevent it. -/
def Judges (P : Prop) (g : Generate α) (σ : Scopes) (Q : α → Scopes → Prop) : Prop :=
  match g σ with
  | .ok (a, σ') => P ∧ Q a σ'
  | .error m => P → m.IsLimit

theorem Judges.bind {Q : α → Scopes → Prop} {R : β → Scopes → Prop} (hg : Judges P g σ Q)
    (hk : ∀ a σ', P → Q a σ' → Judges P' (k a) σ' R) : Judges (P ∧ P') (g >>= k) σ R := by
  unfold Judges at hg
  match hresult : g σ with
  | .ok (a, σ') =>
    rw [hresult] at hg
    have hrest := hk a σ' hg.1 hg.2
    unfold Judges at hrest ⊢
    rw [bind_eq_of_ok hresult]
    split
    · rename_i hok
      rw [hok] at hrest
      exact ⟨⟨hg.1, hrest.1⟩, hrest.2⟩
    · rename_i herror
      rw [herror] at hrest
      exact fun hP => hrest hP.2
  | .error m =>
    rw [hresult] at hg
    unfold Judges
    rw [bind_eq_of_error hresult]
    exact fun hP => hg hP.1

theorem Judges.of_iff {Q : α → Scopes → Prop} (h : Judges P g σ Q) (hiff : P ↔ P') : Judges P' g σ Q :=
  propext hiff ▸ h

/-- Generating code in an environment, which leaves an environment behind. -/
def Judged (E : Surroundings) (P : Prop) (g : Generate α) (E' : Surroundings) : Prop :=
  ∀ σ : Scopes, σ.See E → Judges P g σ fun _ σ' => σ'.See E'

namespace Judged

variable {E E' E'' : Surroundings}

theorem bind (hg : Judged E P g E') (hk : ∀ a, Judged E' P' (k a) E'') : Judged E (P ∧ P') (g >>= k) E'' :=
  fun σ hσ => (hg σ hσ).bind fun a σ' _ hσ' => hk a σ' hσ'

theorem of_iff (h : Judged E P g E') (hiff : P ↔ P') : Judged E P' g E' :=
  fun σ hσ => (h σ hσ).of_iff hiff

theorem pure (a : α) : Judged E True (Pure.pure a) E := fun _ hσ => ⟨trivial, hσ⟩

theorem refuse {m : Mistake} : Judged E False (throw m : Generate α) E' := fun _ _ => False.elim

theorem map {r : α → β} (h : Judged E P g E') : Judged E P (g >>= fun a => Pure.pure (r a)) E' :=
  (h.bind fun a => pure (r a)).of_iff (iff_of_eq (and_true P))

theorem andThen (hg : Judged E True g E') (hk : ∀ a, Judged E' P (k a) E'') : Judged E P (g >>= k) E'' :=
  (hg.bind hk).of_iff (iff_of_eq (true_and P))

theorem followed (hg : Judged E P g E') (hk : ∀ a, Judged E' True (k a) E'') : Judged E P (g >>= k) E'' :=
  (hg.bind hk).of_iff (iff_of_eq (and_true P))

theorem look {k : Scopes → Generate β} (hk : ∀ σ, Judged E P (k σ) E') : Judged E P (get >>= k) E' :=
  fun σ hσ => hk σ σ hσ

theorem forward (distance : Nat) : Judged E True (Generate.forward distance) E := by
  intro σ hσ
  rw [Judges, forward_apply]
  by_cases h : distance ≤ maxWord
  · rw [if_pos h]
    exact ⟨trivial, hσ⟩
  · rw [if_neg h]
    exact fun _ => trivial

theorem backward (distance : Nat) : Judged E True (Generate.backward distance) E := by
  intro σ hσ
  rw [Judges, backward_apply]
  by_cases h : distance ≤ maxWord
  · rw [if_pos h]
    exact ⟨trivial, hσ⟩
  · rw [if_neg h]
    exact fun _ => trivial

theorem aim (exit : Nat) (ps : List Piece) : Judged E True (Generate.aim exit ps) E := by
  induction ps with
  | nil => exact pure []
  | cons p ps ih =>
    cases p with
    | write i => exact ih.map
    | break_ => exact (forward _).andThen fun _ => ih.map

end Judged

end Generate

/-! ### Steps that concern names -/

namespace Scopes.See

variable {σ σ' : Scopes} {f f' : Names} {E : Surroundings}

theorem onCurrent (h : σ.See (f :: E)) (hsees : σ.current.Sees f → σ'.current.Sees f')
    (hkind : σ'.current.kind = σ.current.kind) (henclosing : σ'.enclosing = σ.enclosing) : σ'.See (f' :: E) := by
  obtain ⟨hcurrent, houter⟩ := forall₂_cons.mp h.sees
  refine ⟨forall₂_cons.mpr ⟨hsees hcurrent, henclosing ▸ houter⟩, ?_⟩
  have hkinds := h.kinds
  rw [map_cons] at hkinds ⊢
  rw [hkind, henclosing]
  exact hkinds

theorem current (h : σ.See (f :: E)) : σ.current.Sees f := (forall₂_cons.mp h.sees).1

theorem withDraft (h : σ.See (f :: E)) (d : Draft) : (σ.withDraft d).See (f :: E) :=
  h.onCurrent (fun hs => ⟨⟨hs.nests.depth, hs.nests.locals⟩, hs.few⟩) rfl rfl

theorem inObject (h : σ.See E) : σ.inObject = false := by
  have hkinds : ∀ E : Surroundings, RoutineKind.object ∉ outerKinds E := by
    intro E
    induction E with
    | nil => decide
    | cons f E ih => simpa [outerKinds] using ih
  rw [Scopes.inObject, any_eq_false]
  intro s hs hobject
  refine hkinds E.tail (h.kinds ▸ ?_)
  exact of_decide_eq_true hobject ▸ mem_map_of_mem hs

theorem searched (h : σ.See E) {s : Scope} {outer}
    (hsearched : Searched σ.current σ.enclosing s outer) : Scopes.See ⟨s, outer⟩ E := by
  have htouched := List.Forall₂.cons hsearched.touched hsearched.outer_touched
  refine ⟨Scope.Sees.touched_all h.sees htouched, Eq.trans ?_ h.kinds⟩
  show (s :: outer).map Scope.kind = _
  generalize σ.current :: σ.enclosing = scopes, s :: outer = scopes' at htouched ⊢
  induction htouched with
  | nil => rfl
  | cons ht _ ih => rw [map_cons, map_cons, ih, ht.rest]

theorem left (h : σ.See (f :: f' :: E)) : σ.left.See (f' :: E) := by
  obtain ⟨s, outer, _, houter, henclosing⟩ := forall₂_cons_right_iff.mp (forall₂_cons.mp h.sees).2
  have hleft : σ.left = ⟨s, outer⟩ := by
    rw [Scopes.left, Scopes.leave?, henclosing]
    rfl
  have hsees := (forall₂_cons.mp h.sees).2
  have hkinds := (List.cons.inj h.kinds).2
  rw [henclosing] at hsees hkinds
  rw [hleft]
  exact ⟨hsees, hkinds⟩

/-- Outside every block of a script, and only there, variables are global. -/
theorem atGlobalLevel_iff (h : σ.See (f :: E)) (hblocks : E ≠ [] → f.blocks ≠ []) :
    σ.AtGlobalLevel ↔ f.blocks = [] := by
  rw [Scopes.AtGlobalLevel, h.current.depth]
  constructor
  · intro hglobal
    exact length_eq_zero_iff.mp (by omega)
  · intro hempty
    obtain rfl : E = [] := by
      by_contra hne
      exact hblocks hne hempty
    exact ⟨by rw [hempty]; rfl, (List.cons.inj h.kinds).1⟩

theorem beginBlock {bs} (h : σ.See (⟨bs, none⟩ :: E)) : σ.beginBlock.See (⟨[] :: bs, none⟩ :: E) := by
  exact h.onCurrent (fun hs => ⟨hs.nests.beginBlock, hs.few⟩) rfl rfl

end Scopes.See

namespace Scope.Sees

variable {s : Scope} {b : List String} {bs : List (List String)}

theorem length_locals (h : s.Sees ⟨b :: bs, none⟩) : s.locals.length = (b :: bs).flatten.length + 1 := by
  have hlength := congrArg List.length h.defined
  rw [length_map, Names.variables, length_append, length_append, length_map, length_map,
    Option.toList_none, length_nil, Nat.zero_add] at hlength
  exact hlength

theorem declare (h : s.Sees ⟨b :: bs, none⟩) (x : String) : match s.declare x with
    | .ok s' => Blocks.Admits x (b :: bs) ∧ s'.Sees ⟨b :: bs, some x⟩ | .error _ => ¬ Blocks.Admits x (b :: bs) := by
  have hany : s.ofBlock.any (·.name = x) = decide (x ∈ b) := h.nests.any_eq x
  have hfew := h.few
  rw [h.length_locals] at hfew
  unfold Scope.declare
  rw [hany, h.length_locals]
  by_cases hx : x ∈ b
  · rw [if_pos (decide_eq_true hx)]
    exact fun hadmits => hadmits.1 hx
  · rw [decide_eq_false hx, if_neg nofun]
    by_cases hfull : (b :: bs).flatten.length + 1 = maxSlots
    · rw [if_pos hfull]
      exact fun hadmits => Nat.ne_of_lt hadmits.2 hfull
    · rw [if_neg hfull]
      refine ⟨⟨hx, by omega⟩, ⟨h.nests.depth, congrArg (_ :: ·) h.nests.locals⟩, ?_⟩
      show s.locals.length + 1 ≤ _
      rw [h.length_locals]
      omega

theorem define (h : s.Sees ⟨b :: bs, some x⟩) : s.define.Sees ⟨(x :: b) :: bs, none⟩ := by
  have hlength : s.define.locals.length = s.locals.length := by
    unfold Scope.define
    split
    · rfl
    · split
      · rfl
      · rename_i hlocals
        rw [hlocals]
        rfl
  exact ⟨h.nests.define (by simp), hlength ▸ h.few⟩

theorem endBlock (h : s.Sees ⟨b :: bs, none⟩) : Scope.Sees { s with
      depth := s.depth - 1
      locals := s.locals.dropWhile (s.depth - 1 < ·.depth) } ⟨bs, none⟩ :=
  ⟨h.nests.endBlock rfl rfl, Nat.le_trans (dropWhile_sublist _).length_le h.few⟩

end Scope.Sees

namespace Generate

open Compile (Access)

namespace Judged

variable {α : Type} {P : Prop} {f : Names} {E : Surroundings} {bs : List (List String)}

theorem pool (k : Constant) : Judged (f :: E) True (Generate.pool k) (f :: E) := by
  intro σ hσ
  rw [Judges, pool_apply]
  match σ.current.draft.addConstant k with
  | (.ok _, d) => exact ⟨trivial, hσ.withDraft d⟩
  | (.error _, _) => exact fun _ => trivial

/-- A name is refused in its own initializer, and a script has no properties. -/
theorem resolve {σ : Scopes} (x : String) (hσ : σ.See (f :: E)) :
    Judges (Surroundings.Usable (f :: E) x) (Generate.resolve x) σ fun access σ' =>
      access.isProperty = false ∧ σ'.See (f :: E) := by
  obtain ⟨hcurrent, houter⟩ := forall₂_cons.mp hσ.sees
  have hslot := hcurrent.slot? x
  rw [Judges, resolve_apply]
  split at hslot
  · rename_i hlookup
    have husable : Surroundings.Usable (f :: E) x ↔ Surroundings.Usable E x := by
      rw [Surroundings.usable_cons, hlookup]
      rfl
    have hname : x ≠ "" := by
      rintro rfl
      simp [Names.variables, lookup_append] at hlookup
    have hanswers := Scope.captureFrom_answers (s := σ.current) (x := x) houter
    rw [hslot]
    dsimp only [Scopes.upvalue?]
    match hcapture : σ.current.captureFrom x σ.enclosing with
    | (.error fault, s, outer) =>
      rw [hcapture] at hanswers
      intro hx
      cases fault <;> first | trivial | exact absurd (husable.mp hx) hanswers
    | (.ok (some index), s, outer) =>
      rw [hcapture] at hanswers
      exact ⟨husable.mpr hanswers, rfl, hσ.searched (Scope.captureFrom_eq_ok hname hcapture).1⟩
    | (.ok none, s, outer) =>
      rw [hcapture] at hanswers
      have hσ' := hσ.searched (Scope.captureFrom_eq_ok hname hcapture).1
      dsimp only
      refine Judges.of_iff (P := True ∧ Surroundings.Usable (f :: E) x)
        ((pool (.text x) _ hσ').bind fun index σ'' _ hσ'' => ?_) (iff_of_eq (true_and _))
      refine ⟨husable.mpr hanswers, ?_, hσ''⟩
      rw [hσ''.inObject]
      rfl
  · rename_i hlookup
    obtain ⟨slot, hslot⟩ := hslot
    rw [hslot]
    refine ⟨?_, rfl, hσ⟩
    rw [Surroundings.usable_cons, hlookup]
    exact nofun
  · rename_i hlookup
    rw [hslot]
    intro husable
    rw [Surroundings.usable_cons, hlookup] at husable
    exact absurd rfl husable

theorem onName {variable_ property} (x : String) (hvariable : ∀ access, Judged (f :: E) P (variable_ access) (f :: E)) :
    Judged (f :: E) (Surroundings.Usable (f :: E) x ∧ P) (Generate.onName x variable_ property) (f :: E) := by
  intro σ hσ
  refine (resolve x hσ).bind fun access σ' _ hσ' => ?_
  cases access with
  | property name => cases hσ'.1
  | local_ slot => exact hvariable (.local_ slot) σ' hσ'.2
  | upvalue index => exact hvariable (.upvalue index) σ' hσ'.2
  | global name => exact hvariable (.global name) σ' hσ'.2

theorem counted {a : Arguments} {g} (h : Judged E P g E) :
    Judged E (P ∧ a.length ≤ Compile.maxArguments) (Generate.counted a g) E := by
  refine h.bind fun code σ hσ => ?_
  rw [Judges, Generate.withCount]
  split
  · rename_i r hok
    split at hok
    · rename_i hle
      cases hok
      exact ⟨hle, hσ⟩
    · cases hok
  · rename_i m herror
    split at herror
    · cases herror
    · rename_i hgt
      exact fun hle => absurd hle hgt

theorem application {g} (h : Judged E P g E) : Judged E P (Generate.application g) E := h.map

theorem invocation {g} (name : Nat) (h : Judged E P g E) : Judged E P (Generate.invocation name g) E := h.map

theorem conjunction {g} (h : Judged E P g E) : Judged E P (Generate.conjunction g) E :=
  h.followed fun _ => (forward _).map

theorem disjunction {g} (h : Judged E P g E) : Judged E P (Generate.disjunction g) E :=
  h.followed fun _ => (forward _).map

theorem literal (l : Literal) : Judged (f :: E) True l.code (f :: E) := by
  cases l with
  | number n => exact (pool (.number n)).map
  | text s => exact (pool (.text s)).map
  | nil | true_ | false_ => exact pure _

/-! ### Blocks and functions -/

theorem declare {b} (x : String) : Judged (⟨b :: bs, none⟩ :: E) (Blocks.Admits x (b :: bs)) (Generate.declare x)
      (⟨b :: bs, some x⟩ :: E) := by
  intro σ hσ
  have hdeclare := hσ.current.declare x
  rw [Judges, declare_apply]
  cases hresult : σ.current.declare x with
  | error fault =>
    rw [hresult] at hdeclare
    exact fun hadmits => absurd hadmits hdeclare
  | ok s =>
    rw [hresult] at hdeclare
    refine ⟨hdeclare.1, hσ.onCurrent (fun _ => hdeclare.2) ?_ rfl⟩
    show s.kind = _
    rw [Scope.declare_eq_ok hresult]

theorem define {b} : Judged (⟨b :: bs, some x⟩ :: E) True (modify Scopes.define) (⟨(x :: b) :: bs, none⟩ :: E) :=
  fun σ hσ => ⟨trivial, hσ.onCurrent (fun hs => hs.define) (show σ.current.define.kind = _ by rw [Scope.define_eq]) rfl⟩

theorem beginBlock : Judged (⟨bs, none⟩ :: E) True (modify Scopes.beginBlock) (⟨[] :: bs, none⟩ :: E) :=
  fun _ hσ => ⟨trivial, hσ.beginBlock⟩

theorem endBlock {b} : Judged (⟨b :: bs, none⟩ :: E) True Generate.endBlock (⟨bs, none⟩ :: E) :=
  fun _ hσ => ⟨trivial, hσ.onCurrent (fun hs => hs.endBlock) rfl rfl⟩

theorem variable_ {value} (hblocks : E ≠ [] → bs ≠ [])
    (hvalue : Judged (Blocks.initializing x bs :: E) P value (Blocks.initializing x bs :: E)) :
    Judged (⟨bs, none⟩ :: E) (Blocks.Admits x bs ∧ P) (Generate.variable_ x value)
      (⟨Blocks.declare x bs, none⟩ :: E) := by
  intro σ hσ
  have hglobal := hσ.atGlobalLevel_iff hblocks
  show Judges _ (if σ.AtGlobalLevel then _ else _ : Generate (List Instruction)) σ _
  cases bs with
  | nil =>
    rw [if_pos (hglobal.mpr rfl)]
    exact ((pool (.text x)).bind fun _ => hvalue.map) σ hσ
  | cons b bs =>
    rw [if_neg (fun h => nomatch hglobal.mp h)]
    exact ((declare x).bind fun _ => hvalue.followed fun _ => define.map) σ hσ

theorem functionVariable {function} (hblocks : E ≠ [] → bs ≠ [])
    (hfunction : Judged (⟨Blocks.declare x bs, none⟩ :: E) P function (⟨Blocks.declare x bs, none⟩ :: E)) :
    Judged (⟨bs, none⟩ :: E) (Blocks.Admits x bs ∧ P) (Generate.functionVariable x function)
      (⟨Blocks.declare x bs, none⟩ :: E) := by
  intro σ hσ
  have hglobal := hσ.atGlobalLevel_iff hblocks
  show Judges _ (if σ.AtGlobalLevel then _ else _ : Generate (List Instruction)) σ _
  cases bs with
  | nil =>
    rw [if_pos (hglobal.mpr rfl)]
    exact ((pool (.text x)).bind fun _ => hfunction.map) σ hσ
  | cons b bs =>
    rw [if_neg (fun h => nomatch hglobal.mp h)]
    exact ((declare x).bind fun _ => define.andThen fun _ => hfunction) σ hσ

theorem parameter_apply (x : String) (σ : Scopes) :
    Generate.parameter x σ = if σ.current.arity = Compile.maxArguments then .error .tooManyParameters
      else match σ.countParameter.current.declare x with
        | .ok s => .ok ((), (σ.countParameter.onCurrent fun _ => s).define)
        | .error fault => .error (.scope fault) := by
  show (if σ.current.arity = Compile.maxArguments then _ else _ : Generate Unit) σ = _
  split
  · rfl
  · show (Generate.declare x >>= fun _ => modify Scopes.define) σ.countParameter = _
    have hdeclare := declare_apply x σ.countParameter
    cases hresult : σ.countParameter.current.declare x with
    | error fault =>
      rw [hresult] at hdeclare
      exact bind_eq_of_error hdeclare
    | ok s =>
      rw [hresult] at hdeclare
      exact bind_eq_of_ok hdeclare

theorem parameter {b : List String} {σ : Scopes} (x : String) (hσ : σ.See (⟨[b], none⟩ :: E))
    (harity : σ.current.arity = b.length) :
    Judges (b.length < Compile.maxArguments ∧ x ∉ b) (Generate.parameter x) σ fun _ σ' =>
      σ'.See (⟨[x :: b], none⟩ :: E) ∧ σ'.current.arity = b.length + 1 := by
  have hcount : σ.countParameter.See (⟨[b], none⟩ :: E) :=
    hσ.onCurrent (fun hs => ⟨⟨hs.nests.depth, hs.nests.locals⟩, hs.few⟩) rfl rfl
  have hdeclare := hcount.current.declare x
  have hroom : b.length < Compile.maxArguments ↔ [b].flatten.length + 1 < maxSlots := by
    simp only [flatten_cons, flatten_nil, append_nil, Compile.maxArguments, maxSlots]
    omega
  rw [Judges, parameter_apply, harity]
  by_cases hmax : b.length = Compile.maxArguments
  · rw [if_pos hmax]
    exact fun hP => absurd hmax (Nat.ne_of_lt hP.1)
  · rw [if_neg hmax]
    cases hresult : σ.countParameter.current.declare x with
    | error fault =>
      rw [hresult] at hdeclare
      exact fun hP => absurd ⟨hP.2, hroom.mp hP.1⟩ hdeclare
    | ok s =>
      rw [hresult] at hdeclare
      obtain ⟨⟨hx, hlength⟩, hs⟩ := hdeclare
      refine ⟨⟨hroom.mpr hlength, hx⟩, hcount.onCurrent (fun _ => hs.define) ?_ rfl, ?_⟩
      · exact (congrArg Scope.kind s.define_eq).trans (by rw [Scope.declare_eq_ok hresult])
      · refine (congrArg Scope.arity s.define_eq).trans ?_
        rw [Scope.declare_eq_ok hresult, ← harity]
        rfl

theorem parameters (ps b : List String) (hb : b.Nodup) {σ : Scopes} (hσ : σ.See (⟨[b], none⟩ :: E))
    (harity : σ.current.arity = b.length) :
    Judges (ps.length + b.length ≤ Compile.maxArguments ∧ (ps.reverse ++ b).Nodup)
      (ps.forM Generate.parameter) σ fun _ σ' => σ'.See (⟨[ps.reverse ++ b], none⟩ :: E) := by
  induction ps generalizing b σ with
  | nil =>
    have hfew := hσ.current.few
    rw [hσ.current.length_locals] at hfew
    refine ⟨⟨?_, hb⟩, hσ⟩
    simp [maxSlots, Compile.maxArguments] at hfew ⊢
    omega
  | cons x ps ih =>
    rw [reverse_cons, append_assoc, singleton_append, length_cons]
    refine ((parameter x hσ harity).bind fun _ σ' hx hσ' =>
      ih (x :: b) (nodup_cons.mpr ⟨hx.2, hb⟩) hσ'.1 hσ'.2).of_iff ?_
    rw [length_cons]
    constructor
    · exact fun h => ⟨by omega, h.2.2⟩
    · exact fun h => ⟨⟨by omega, (nodup_cons.mp (nodup_append.mp h.2).2.1).1⟩, by omega, h.2⟩

theorem function {owner} {name : String} {ps : List String} {body}
    (hbody : Judged (⟨[ps.reverse], none⟩ :: f :: E) P body (⟨bs, none⟩ :: f :: E)) :
    Judged (f :: E) (ps.length ≤ Compile.maxArguments ∧ ps.Nodup ∧ P)
      (Generate.function owner name ps body) (f :: E) := by
  intro σ hσ
  have henter : ((σ.enter .function name owner).beginBlock).See (⟨[[]], none⟩ :: f :: E) := by
    refine Scopes.See.beginBlock ⟨.cons ⟨⟨rfl, rfl⟩, ?_⟩ hσ.sees, ?_⟩
    · exact Nat.le_of_ble_eq_true rfl
    · exact congrArg (_ :: ·) hσ.kinds
  have hparameters := parameters ps [] nodup_nil henter rfl
  rw [append_nil] at hparameters
  have hrest := hparameters.bind fun _ σ1 _ hσ1 => (hbody σ1 hσ1).bind fun code σ2 _ hσ2 =>
    (pool (.routine (σ2.current.finish (Pieces.encode code)))).map
      (r := fun index => [Instruction.closure index σ2.current.captures.toList]) σ2.left hσ2.left
  refine Judges.of_iff (P := (ps.length + 0 ≤ _ ∧ _) ∧ P ∧ True) hrest ?_
  rw [nodup_reverse]
  simp [and_assoc]

/-! ### Statements -/

theorem conditional {P1 : Prop} (P2 P3 : Bool → Prop) {condition yes no} (hcondition : Judged E P1 condition E)
    (hyes : ∀ l, Judged E (P2 l.isSome) (yes l) E) (hno : ∀ l, Judged E (P3 l.isSome) (no l) E) (l : Option LoopSite) :
    Judged E (P1 ∧ P2 l.isSome ∧ P3 l.isSome) (Generate.conditional condition yes no l) E := by
  have hyes' (bytes : Nat) : Judged E (P2 l.isSome) (yes (l.map (·.after bytes))) E := by
    simpa using hyes (l.map (·.after bytes))
  have hno' (bytes : Nat) : Judged E (P3 l.isSome) (no (l.map (·.after bytes))) E := by
    simpa using hno (l.map (·.after bytes))
  exact hcondition.bind fun _ => (hyes' _).bind fun _ => (forward _).andThen fun _ =>
    (hno' _).followed fun _ => (forward _).map

theorem optional (h : ∀ g, clause = some g → Judged E P g E) (hnone : clause = none → P) :
    Judged E P (Generate.optional clause) E := by
  cases clause with
  | none => exact (pure none).of_iff (iff_of_true trivial (hnone rfl))
  | some g => exact (h g rfl).map

theorem orElse {default} (hdefault : Judged E True default E) (h : ∀ g, clause = some g → Judged E P g E)
    (hnone : clause = none → P) : Judged E P (clause.getD default) E := by
  cases clause with
  | none => exact hdefault.of_iff (iff_of_true trivial (hnone rfl))
  | some g => exact h g rfl

theorem stepCode (test : Option (List Instruction))
    (h : ∀ g, clause = some g → Judged E P g E) (hnone : clause = none → P) :
    Judged E P (Generate.stepCode test clause) E := by
  cases clause with
  | none => exact (pure _).of_iff (iff_of_true trivial (hnone rfl))
  | some g => exact (h g rfl).followed fun _ => (backward _).andThen fun _ => (forward _).map

theorem testCode (rest : Nat) (test : Option (List Instruction)) : Judged E True (Generate.testCode rest test) E := by
  cases test with
  | none => exact pure _
  | some test => exact (forward _).map

theorem loop {P1 P2 P3 : Prop} {condition step : Option (Generate (List Instruction))}
    {body : LoopSite → Generate (List Piece)} (hcondition : Judged E P1 (Generate.optional condition) E)
    (hstep : ∀ test, Judged E P2 (Generate.stepCode test step) E) (hbody : ∀ l, Judged E P3 (body l) E) :
    Judged E (P1 ∧ P2 ∧ P3) (Generate.loop condition step body) E :=
  hcondition.bind fun test => (hstep test).bind fun _ => look fun _ => (hbody _).followed fun _ =>
    (backward _).andThen fun _ => (testCode _ _).andThen fun _ => (aim _ _).map

theorem leaving (depth : Int) : Judged E True (Generate.leaving depth) E := look fun _ => pure _

theorem exitLoop (l : Option LoopSite) : Judged E (l.isSome = true) (Generate.exitLoop l) E := by
  cases l with
  | none => exact refuse.of_iff (iff_of_false id nofun)
  | some l => exact (leaving _).map.of_iff (iff_of_true trivial rfl)

theorem continueLoop (l : Option LoopSite) : Judged E (l.isSome = true) (Generate.continueLoop l) E := by
  cases l with
  | none => exact refuse.of_iff (iff_of_false id nofun)
  | some l =>
    exact ((leaving _).andThen fun _ => (backward _).map).of_iff (iff_of_true trivial rfl)

end Judged

end Generate

/-! ### Trees -/

open Generate (Judged)

theorem Clause.lawful_of_code?_none {E} (c : Clause) (h : c.code? Option.none = Option.none) : c.Lawful E := by
  match c with
  | .none => trivial
  | .some _ => cases h

mutual

theorem Expression.code_judged (f : Names) (E : Surroundings) :
    ∀ e : Expression, Judged (f :: E) (e.Lawful (f :: E)) (e.code none) (f :: E)
  | .literal l => .literal l
  | .name x => (Judged.onName x fun _ => .pure _).of_iff (iff_of_eq (and_true _))
  | .assign x _ value => .onName x fun _ => (value.code_judged f E).map
  | .unary _ e => (e.code_judged f E).map
  | .binary _ l r => (l.code_judged f E).bind fun _ => (r.code_judged f E).map
  | .and l r => (l.code_judged f E).bind fun _ => (Judged.conjunction (r.code_judged f E)).map
  | .or l r => (l.code_judged f E).bind fun _ => (Judged.disjunction (r.code_judged f E)).map
  | .call e a => (e.code_judged f E).bind fun _ => (Judged.application (.counted (a.code_judged f E))).map
  | .callName x a => .onName x fun _ => (Judged.application (.counted (a.code_judged f E))).map
  | .property e _ => (e.code_judged f E).followed fun _ => (Judged.pool _).map
  | .assignProperty e _ _ value =>
    (e.code_judged f E).bind fun _ => (Judged.pool _).andThen fun _ => (value.code_judged f E).map
  | .invoke e _ a => (e.code_judged f E).bind fun _ => (Judged.pool _).andThen fun name =>
      (Judged.invocation name (.counted (a.code_judged f E))).map
  | .this => by
    intro σ hσ
    show Generate.Judges False (if σ.inObject then _ else _) σ _
    rw [hσ.inObject]
    exact Judged.refuse σ hσ
  | .superCall _ _ => fun _ _ => False.elim
  | .lambda ps body => .function (body.code_judged [ps.reverse] (f :: E) (fun _ => nofun) none)

theorem Arguments.code_judged (f : Names) (E : Surroundings) :
    ∀ a : Arguments, Judged (f :: E) (a.Lawful (f :: E)) (a.code none) (f :: E)
  | .nil => .pure []
  | .cons e rest => (e.code_judged f E).bind fun _ => (rest.code_judged f E).map

theorem Clause.code_judged (f : Names) (E : Surroundings) (c : Clause) :
    ∀ g, c.code? Option.none = Option.some g → Judged (f :: E) (c.Lawful (f :: E)) g (f :: E) := by
  intro g hg
  match c with
  | .none => cases hg
  | .some e =>
    cases hg
    exact e.code_judged f E

theorem Declarators.code_judged (bs : List (List String)) (E : Surroundings) (hblocks : E ≠ [] → bs ≠ []) :
    ∀ vs : Declarators, Judged (⟨bs, none⟩ :: E) (vs.Lawful bs E) (vs.code none) (⟨vs.after bs, none⟩ :: E)
  | .nil => .pure []
  | .cons x value rest => by
    have hvalue := Judged.orElse (.pure [.pushNil]) (value.code_judged (Blocks.initializing x bs) E)
      value.lawful_of_code?_none
    have hrest := rest.code_judged (Blocks.declare x bs) E (fun hE => Blocks.declare_ne_nil (hblocks hE))
    exact ((Judged.variable_ hblocks hvalue).bind fun _ => hrest.map).of_iff and_assoc

theorem Statement.code_judged (bs : List (List String)) (E : Surroundings) (hblocks : E ≠ [] → bs ≠ []) :
    ∀ (s : Statement) (l : Option LoopSite),
      Judged (⟨bs, none⟩ :: E) (s.Lawful bs E l.isSome) (s.code none l) (⟨bs, none⟩ :: E)
  | .expression e, _ => (e.code_judged ⟨bs, none⟩ E).map
  | .block body, l => by
    have hbody := body.code_judged ([] :: bs) E (fun _ => nofun) l
    obtain ⟨b, hafter⟩ := body.after_cons [] bs
    rw [hafter] at hbody
    exact Judged.beginBlock.andThen fun _ => hbody.followed fun _ => Judged.endBlock.map
  | .ifThen e s, l =>
    (Judged.conditional (fun inLoop => s.Lawful bs E inLoop) (fun _ => True) (e.code_judged ⟨bs, none⟩ E)
      (s.code_judged bs E hblocks) (fun _ => .pure _) l).of_iff (by rw [and_true]; rfl)
  | .ifElse e s a, l =>
    .conditional (fun inLoop => s.Lawful bs E inLoop) (fun inLoop => a.Lawful bs E inLoop)
      (e.code_judged ⟨bs, none⟩ E) (s.code_judged bs E hblocks) (a.code_judged bs E hblocks) l
  | .while_ e s, _ =>
    (Judged.loop (e.code_judged ⟨bs, none⟩ E).map (fun _ => .pure _)
      fun l => s.code_judged bs E hblocks (some l)).of_iff (by rw [true_and]; rfl)
  | .for_ first condition step s, l => by
    have hfirst := first.code_judged ([] :: bs) E (fun _ => nofun) l
    obtain ⟨b, hafter⟩ := first.after_cons [] bs
    have hblocks' : first.after ([] :: bs) ≠ [] := hafter ▸ nofun
    have hbody (l : LoopSite) : Judged (⟨first.after ([] :: bs), none⟩ :: E)
        (s.Lawful (first.after ([] :: bs)) E true) (s.code none (some l)) (⟨first.after ([] :: bs), none⟩ :: E) :=
      s.code_judged (first.after ([] :: bs)) E (fun _ => hblocks') (some l)
    have hcondition := condition.code_judged ⟨first.after ([] :: bs), none⟩ E
    have hstep := step.code_judged ⟨first.after ([] :: bs), none⟩ E
    have hloop := Judged.loop (.optional hcondition condition.lawful_of_code?_none)
      (fun test => .stepCode test hstep step.lawful_of_code?_none) hbody
    have hend : Judged (⟨first.after ([] :: bs), none⟩ :: E) True Generate.endBlock (⟨bs, none⟩ :: E) := by
      rw [hafter]
      exact Judged.endBlock
    exact Judged.beginBlock.andThen fun _ => hfirst.bind fun _ => hloop.followed fun _ => hend.map
  | .return_ value, _ => (Judged.orElse (.pure _) (value.code_judged ⟨bs, none⟩ E)
      value.lawful_of_code?_none).map
  | .break_, l => .exitLoop l
  | .continue_, l => .continueLoop l

theorem Declaration.code_judged (bs : List (List String)) (E : Surroundings) (hblocks : E ≠ [] → bs ≠ []) :
    ∀ (d : Declaration) (l : Option LoopSite),
      Judged (⟨bs, none⟩ :: E) (d.Lawful bs E l.isSome) (d.code none l) (⟨d.after bs, none⟩ :: E)
  | .function x ps body, _ =>
    (Judged.functionVariable hblocks (.function (body.code_judged [ps.reverse]
      (⟨Blocks.declare x bs, none⟩ :: E) (fun _ => nofun) none))).map
  | .variables vs, _ => (vs.code_judged bs E hblocks).map
  | .statement s, l => s.code_judged bs E hblocks l

theorem Declarations.code_judged (bs : List (List String)) (E : Surroundings) (hblocks : E ≠ [] → bs ≠ []) :
    ∀ (ds : Declarations) (l : Option LoopSite),
      Judged (⟨bs, none⟩ :: E) (ds.Lawful bs E l.isSome) (ds.code none l) (⟨ds.after bs, none⟩ :: E)
  | .nil, _ => .pure []
  | .cons d rest, l => by
    have hd := d.code_judged bs E hblocks l
    have hrest (bytes : Nat) := rest.code_judged (d.after bs) E
      (fun hE => d.after_ne_nil (hblocks hE)) (l.map (·.after bytes))
    simp only [Option.isSome_map] at hrest
    exact hd.bind fun _ => (hrest _).map

end

end Mudscript
