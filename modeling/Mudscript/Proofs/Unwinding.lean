import Mudscript.Compile.Script
import Mudscript.Proofs.Nesting

/-!
# Leaving blocks

A block is left in two ways. At its end its locals are taken off the stack and forgotten. A `break` or `continue`
leaves any number of blocks at once, and the locals of all of them are taken off the stack but not forgotten, since
the text goes on inside. Either way the locals are found by their depths, from the newest on, until one is not deep
enough. That these are all of them is so because the depths are in order, and they are in order because of how
declarations, blocks and functions follow each other: the steps of a compilation are such that at each time the
locals are those of nested blocks.
-/

namespace Mudscript

open List

/-! ### Locals in the order of their depths -/

theorem takeWhile_eq_filter {α : Type} {p : α → Bool} {xs : List α}
    (h : xs.Pairwise fun x y => p y = true → p x = true) : xs.takeWhile p = xs.filter p := by
  induction h with
  | nil => rfl
  | @cons x xs hx _ ih =>
    by_cases hp : p x = true
    · rw [takeWhile_cons_of_pos hp, filter_cons_of_pos hp, ih]
    · rw [takeWhile_cons_of_neg hp, filter_cons_of_neg hp, eq_comm, filter_eq_nil_iff]
      exact fun y hy hy' => hp (hx y hy hy')

theorem dropWhile_eq_filter {α : Type} {p : α → Bool} {xs : List α}
    (h : xs.Pairwise fun x y => p y = true → p x = true) : xs.dropWhile p = xs.filter fun x => !p x := by
  induction h with
  | nil => rfl
  | @cons x xs hx _ ih =>
    by_cases hp : p x = true
    · rw [dropWhile_cons_of_pos hp, filter_cons_of_neg (by simp [hp]), ih]
    · rw [dropWhile_cons_of_neg hp, eq_comm, filter_eq_self]
      intro y hy
      rcases mem_cons.mp hy with rfl | hy
      · simp [hp]
      · simpa using fun hy' => hp (hx y hy hy')

namespace Scope

variable {s : Scope} {bs : List (List String)} {pending : Option String}

/-- All locals are defined, none is deeper than the current block, and those further inside are not less deep. -/
structure Ranked (s : Scope) : Prop where
  sorted : s.locals.Pairwise fun l outer => outer.depth ≤ l.depth
  le : ∀ l ∈ s.locals, l.depth ≤ s.depth

/-- The depths of the locals are in order, and only the newest local may not be defined. -/
def Layered (s : Scope) : Prop :=
  ∃ new old, s.locals = new ++ old ∧ new.length ≤ 1 ∧ (∀ l ∈ new, l.isDefined = false) ∧
    (∀ l ∈ old, l.isDefined = true) ∧ old.Pairwise fun l outer => outer.depth ≤ l.depth

theorem emitAll_draft (s : Scope) (is : List Instruction) (line : Nat) :
    (s.emitAll is line).draft = is.foldl (fun d i => d.emit i line) s.draft := by
  induction is generalizing s with
  | nil => rfl
  | cons i is ih => exact ih (s.emit i line)

namespace Ranked

theorem deeper (h : s.Ranked) (depth : Int) :
    s.locals.Pairwise fun l outer => decide (depth < outer.depth) = true → decide (depth < l.depth) = true :=
  h.sorted.imp fun hle hdeep => by
    simp only [decide_eq_true_eq] at hdeep ⊢
    omega

theorem deeperThan_eq (h : s.Ranked) (depth : Int) : s.deeperThan depth = s.locals.filter (depth < ·.depth) :=
  takeWhile_eq_filter (h.deeper depth)

theorem endBlock (h : s.Ranked) (line : Nat) : (s.endBlock line).Ranked := by
  have hlocals : (s.endBlock line).locals = s.locals.filter fun l => !decide (s.depth - 1 < l.depth) :=
    dropWhile_eq_filter (h.deeper _)
  refine ⟨?_, fun l hl => ?_⟩
  · rw [hlocals]
    exact h.sorted.filter _
  · rw [hlocals, mem_filter] at hl
    show l.depth ≤ s.depth - 1
    simpa using hl.2

/-- Ending blocks one after the other takes the locals off the stack that are deeper than the block that is left. -/
theorem endBlocks_draft (h : s.Ranked) (line n : Nat) : ((fun s => Scope.endBlock s line)^[n] s).draft
    = (s.emitAll ((s.locals.filter (s.depth - n < ·.depth)).map Local.leave) line).draft := by
  induction n generalizing s with
  | zero =>
    have hnone : s.locals.filter (s.depth - (0 : Nat) < ·.depth) = [] :=
      filter_eq_nil_iff.mpr fun l hl => by simpa using h.le l hl
    rw [hnone]
    rfl
  | succ n ih =>
    have hsplit : s.locals.filter (s.depth - (n + 1 : Nat) < ·.depth)
        = s.deeperThan (s.depth - 1) ++ (s.endBlock line).locals.filter (s.depth - 1 - n < ·.depth) := by
      conv_lhs => rw [← takeWhile_append_dropWhile (p := fun l : Local => s.depth - 1 < l.depth) (l := s.locals)]
      rw [filter_append]
      refine congrArg₂ _ (filter_eq_self.mpr fun l hl => ?_) (filter_congr fun l _ => ?_)
      · have := mem_takeWhile_imp hl
        simp only [decide_eq_true_eq] at this ⊢
        omega
      · rw [show s.depth - (n + 1 : Nat) = s.depth - 1 - n by omega]
    have hdraft : (s.endBlock line).draft = (s.emitAll ((s.deeperThan (s.depth - 1)).map Local.leave) line).draft := rfl
    rw [Function.iterate_succ_apply, ih (h.endBlock line), emitAll_draft, hdraft, emitAll_draft, emitAll_draft, hsplit,
      map_append, foldl_append]
    rfl

end Ranked

theorem layers_sorted (bs : List (List String)) : (layers bs).Pairwise fun l outer => outer.2 ≤ l.2 := by
  induction bs with
  | nil => exact .nil
  | cons b bs ih =>
    refine pairwise_append.mpr ⟨?_, ih, fun l hl outer houter => ?_⟩
    · exact pairwise_map.mpr (pairwise_of_forall fun _ _ => Int.le_refl _)
    · obtain ⟨x, _, rfl⟩ := mem_map.mp hl
      exact Int.le_of_lt (layers_depth houter).2

theorem Nests.layered (h : s.Nests bs pending) : s.Layered := by
  obtain ⟨new, old, hlocals, hnew, hold⟩ := map_eq_append_iff.mp h.locals
  refine ⟨new, old, hlocals, ?_, fun l hl => ?_, fun l hl => ?_, ?_⟩
  · have hlength := congrArg List.length hnew
    rw [length_map, length_map] at hlength
    rw [hlength]
    cases pending <;> simp
  · have hmem : (l.name, l.depth) ∈ pending.toList.map (·, Local.undefinedDepth) := hnew ▸ mem_map_of_mem hl
    obtain ⟨x, _, hx⟩ := mem_map.mp hmem
    simp [Local.isDefined, ← (Prod.mk.inj hx).2]
  · have hmem : (l.name, l.depth) ∈ layers bs := hold ▸ mem_map_of_mem hl
    have hdepth : 0 ≤ l.depth := (layers_depth hmem).1
    exact decide_eq_true fun h => absurd (h ▸ hdepth) (by decide)
  · exact pairwise_map.mp (hold ▸ layers_sorted bs)

theorem Nests.ranked (h : s.Nests bs none) : s.Ranked := by
  have hlocals : s.locals.map (fun l => (l.name, l.depth)) = layers bs := h.locals
  refine ⟨pairwise_map.mp (hlocals ▸ layers_sorted bs), fun l hl => ?_⟩
  have hmem : (l.name, l.depth) ∈ layers bs := hlocals ▸ mem_map_of_mem hl
  have := (layers_depth hmem).2
  have := h.depth
  omega

end Scope

/-! ### Nested blocks of nested functions -/

namespace Scope

theorem addCapture_touched (s : Scope) (c : Capture) : s.Touched (s.addCapture c).2 := by
  unfold addCapture
  split
  · exact .refl s
  · split
    · exact .refl s
    · exact ⟨rfl, .refl _, by simp⟩

/-- Whether or not a name is found, the search for it does nothing but mark and capture. -/
theorem captureFrom_touched (s : Scope) (x : String) (outer : List Scope) :
    s.Touched (s.captureFrom x outer).2.1 ∧ List.Forall₂ Touched outer (s.captureFrom x outer).2.2 := by
  induction outer generalizing s with
  | nil => exact ⟨.refl s, .nil⟩
  | cons e outer ih =>
    obtain ⟨he, houter⟩ := ih e
    unfold captureFrom
    split
    · exact ⟨.refl s, Touched.refl_all _⟩
    · exact ⟨s.addCapture_touched _, .cons (e.markCaptured_touched _) (Touched.refl_all _)⟩
    · split <;> rename_i hinner <;> rw [hinner] at he houter
      · exact ⟨.refl s, .cons he houter⟩
      · exact ⟨.refl s, .cons he houter⟩
      · exact ⟨s.addCapture_touched _, .cons he houter⟩

end Scope

/-- The variables of a function under compilation, block by block, the innermost block and the newest variable first. -/
structure Nest where
  kind : RoutineKind
  blocks : List (List String)
  pending : Option String

def Nest.start (kind : RoutineKind) : Nest :=
  ⟨kind, [(Scope.start kind "" none).locals.map Local.name], none⟩

theorem Nest.eq_nil_of_start {kind kind' b inner bs pending} (h : start kind = ⟨kind', inner ++ b :: bs, pending⟩) :
    bs = [] := by
  have hlength := congrArg (List.length ∘ blocks) h
  simp only [Function.comp_apply, start, length_append, length_cons, length_nil] at hlength
  exact length_eq_zero_iff.mp (by omega)

structure Scope.Matches (s : Scope) (n : Nest) : Prop where
  kind_eq : s.kind = n.kind
  nests : s.Nests n.blocks n.pending

namespace Scopes

variable {s s' : Scopes} {ns ns' ns'' : List Nest} {step : Step} {steps steps' : List Step} {change : Change}

def Matched (s : Scopes) (ns : List Nest) : Prop := List.Forall₂ Scope.Matches (s.current :: s.enclosing) ns

/-- What a change does to the variables. There is a declaration only where no other is pending, and a block ends only
inside of the block that slot 0 is in. -/
inductive Change.Next : List Nest → Change → List Nest → Prop
  | enter {ns kind} : Next ns (.enter kind) (.start kind :: ns)
  | leave {n outer ns} : Next (n :: outer :: ns) .leave (outer :: ns)
  | beginBlock {kind bs ns} : Next (⟨kind, bs, none⟩ :: ns) .beginBlock (⟨kind, [] :: bs, none⟩ :: ns)
  | endBlock {kind b bs ns} : bs ≠ [] → Next (⟨kind, b :: bs, none⟩ :: ns) .endBlock (⟨kind, bs, none⟩ :: ns)
  | declare {kind bs ns x} : Next (⟨kind, bs, none⟩ :: ns) (.declare x) (⟨kind, bs, some x⟩ :: ns)
  | define {kind b bs ns x} : bs ≠ [] →
      Next (⟨kind, b :: bs, some x⟩ :: ns) .define (⟨kind, (x :: b) :: bs, none⟩ :: ns)
  | discard {kind bs ns depth} : Next (⟨kind, bs, none⟩ :: ns) (.discard depth) (⟨kind, bs, none⟩ :: ns)
  | resolve {ns x} : Next ns (.resolve x) ns
  | write {ns : List Nest} : Next ns .write ns

def Change.Enacts (s s' : Scopes) : Change → Prop
  | .enter kind => ∃ name owner, s' = s.enter kind name owner
  | .leave => s.leave? = some s'
  | .beginBlock => s' = { s with current := s.current.beginBlock }
  | .endBlock => ∃ line, s' = { s with current := s.current.endBlock line }
  | .declare x => ∃ current, s.current.declare x = .ok current ∧ s' = { s with current }
  | .define => s' = { s with current := s.current.define }
  | .resolve x => s' = (s.upvalue? x).2
  | .discard depth => ∃ line, s' = { s with current := s.current.discardAbove depth line }
  | .write => ∃ draft loops arity, s' = { s with current := { s.current with draft, loops, arity } }

theorem Matched.of_touched {ss ss'} (ht : List.Forall₂ Scope.Touched ss ss')
    (h : List.Forall₂ Scope.Matches ss ns) : List.Forall₂ Scope.Matches ss' ns := by
  induction ht generalizing ns with
  | nil => exact h
  | cons ht _ ih =>
    cases h with
    | cons hs hrest => exact .cons ⟨(congrArg Scope.kind ht.rest).trans hs.kind_eq, hs.nests.touched ht⟩ (ih hrest)

theorem Matched.next (h : s.Matched ns) (henacts : change.Enacts s s') (hnext : change.Next ns ns') :
    s'.Matched ns' := by
  obtain ⟨current, enclosing⟩ := s
  cases hnext with
  | @enter _ kind =>
    obtain ⟨name, owner, rfl⟩ := henacts
    refine .cons ⟨rfl, rfl, ?_⟩ h
    cases kind <;> rfl
  | leave =>
    cases h with
    | cons _ hrest =>
      cases hrest with
      | cons hs hrest =>
        cases henacts
        exact .cons hs hrest
  | beginBlock =>
    cases henacts
    cases h with
    | cons hs hrest => exact .cons ⟨hs.kind_eq, hs.nests.beginBlock⟩ hrest
  | endBlock _ =>
    obtain ⟨line, rfl⟩ := henacts
    cases h with
    | cons hs hrest =>
      refine .cons ⟨?_, hs.nests.endBlock rfl rfl⟩ hrest
      exact (congrArg Scope.kind (current.emitAll_eq _ line)).trans hs.kind_eq
  | declare =>
    obtain ⟨declared, hdeclare, rfl⟩ := henacts
    cases h with
    | cons hs hrest =>
      obtain rfl := Scope.declare_eq_ok hdeclare
      exact .cons ⟨hs.kind_eq, hs.nests.depth, congrArg (_ :: ·) hs.nests.locals⟩ hrest
  | define hbs =>
    cases henacts
    cases h with
    | cons hs hrest => exact .cons ⟨(congrArg Scope.kind current.define_eq).trans hs.kind_eq, hs.nests.define hbs⟩ hrest
  | discard =>
    obtain ⟨line, rfl⟩ := henacts
    cases h with
    | cons hs hrest =>
      refine .cons ?_ hrest
      dsimp only
      rw [Scope.discardAbove, Scope.emitAll_eq]
      exact ⟨hs.kind_eq, hs.nests.depth, hs.nests.locals⟩
  | @resolve _ x =>
    cases henacts
    have ht := current.captureFrom_touched x enclosing
    exact .of_touched (.cons ht.1 ht.2) h
  | write =>
    obtain ⟨_, _, _, rfl⟩ := henacts
    cases h with
    | cons hs hrest => exact .cons ⟨hs.kind_eq, hs.nests.depth, hs.nests.locals⟩ hrest

/-- Each step does what it is on record for, and the variables change accordingly. -/
inductive Tracks : List Nest → List Step → List Nest → Prop
  | nil {ns : List Nest} : Tracks ns [] ns
  | cons {ns ns' ns'' : List Nest} {step : Step} {steps : List Step} : step.change.Enacts step.before step.after →
      step.change.Next ns ns' → Tracks ns' steps ns'' → Tracks ns (step :: steps) ns''

namespace Tracks

theorem append (h : Tracks ns steps ns') (h' : Tracks ns' steps' ns'') : Tracks ns (steps ++ steps') ns'' := by
  induction h with
  | nil => exact h'
  | cons henacts hnext _ ih => exact .cons henacts hnext (ih h')

theorem split {steps1 steps2 : List Step} (h : Tracks ns (steps1 ++ steps2) ns'') :
    ∃ ns', Tracks ns steps1 ns' ∧ Tracks ns' steps2 ns'' := by
  induction steps1 generalizing ns with
  | nil => exact ⟨ns, .nil, h⟩
  | cons step steps1 ih =>
    cases h with
    | cons henacts hnext h =>
      obtain ⟨ns', h1, h2⟩ := ih h
      exact ⟨ns', .cons henacts hnext h1, h2⟩

theorem nested (h : Tracks ns steps ns') (hjoined : s.Joined steps s') (hs : s.Matched ns) : s'.Matched ns' := by
  induction h generalizing s with
  | nil => exact (show s' = s from hjoined) ▸ hs
  | cons henacts hnext _ ih =>
    obtain ⟨rfl, hjoined⟩ := hjoined
    exact ih hjoined (hs.next henacts hnext)

end Tracks

/-! ### The block that ends -/

/-- How many functions there are around the current one, and how deep its blocks are nested. -/
def level (s : Scopes) : Nat × Int := (s.enclosing.length, s.current.depth)

/-- A block that begins in the first state is open in the second. -/
def Surrounds (s s' : Scopes) : Prop :=
  s.level.1 < s'.level.1 ∨ s.level.1 = s'.level.1 ∧ s.level.2 < s'.level.2

/-- The variable that is declared in a block of this level. -/
def Step.declaredAt (level : Nat × Int) (step : Step) : Option String :=
  match step.change with
  | .declare x => if step.before.level = level then some x else none
  | _ => none

theorem Matched.level_eq {n : Nest} (h : s.Matched (n :: ns)) : s.level = (ns.length, (n.blocks.length : Int) - 1) := by
  cases h with
  | cons hs hrest =>
    have := hs.nests.depth
    exact Prod.ext hrest.length_eq (by simp only [level]; omega)

variable {kind : RoutineKind} {names : List String} {inner bs : List (List String)} {rest above : List Nest}
  {pending : Option String} {b : List String}

/-- Blocks inside of one that is open, and functions inside of one that is being written, are further inside. -/
theorem Matched.surrounds (h : s.Matched (⟨kind, bs, none⟩ :: rest))
    (h' : s'.Matched (above ++ ⟨kind, inner ++ b :: bs, pending⟩ :: rest)) : s.Surrounds s' := by
  cases above with
  | nil =>
    have hlevel := @Matched.level_eq s' rest _ h'
    rw [Surrounds, h.level_eq, hlevel]
    refine .inr ⟨rfl, ?_⟩
    simp only [length_append, length_cons]
    omega
  | cons n above =>
    have hlevel := @Matched.level_eq s' (above ++ _ :: rest) _ h'
    rw [Surrounds, h.level_eq, hlevel]
    refine .inl ?_
    simp only [length_append, length_cons]
    omega

/-- The steps begin a block on top of the blocks `bs`, and since then these variables were declared in it. -/
def Opened (steps : List Step) (kind : RoutineKind) (bs : List (List String)) (rest : List Nest) (names : List String) :
    Prop :=
  ∃ earlier opening inside, steps = earlier ++ opening :: inside ∧ opening.change = .beginBlock ∧
    opening.before.Matched (⟨kind, bs, none⟩ :: rest) ∧ opening.after.level = (rest.length, (bs.length : Int)) ∧
    (∀ step ∈ inside, opening.before.Surrounds step.after) ∧
    inside.filterMap (Step.declaredAt (rest.length, bs.length)) = names.reverse

/-- Every block was begun, but the one that slot 0 is in, and its variables are those that were declared since. -/
def Bracketed (steps : List Step) (ns : List Nest) : Prop :=
  ∀ (above : List Nest) (inner : List (List String)) ⦃kind b bs pending rest⦄,
    ns = above ++ ⟨kind, inner ++ b :: bs, pending⟩ :: rest → bs ≠ [] →
      Opened steps kind bs rest ((if inner = [] then pending.toList else []) ++ b)

theorem Opened.snoc (h : Opened steps kind bs rest names) (above : List Nest) (inner : List (List String))
    (hafter : step.after.Matched (above ++ ⟨kind, inner ++ b :: bs, pending⟩ :: rest)) :
    Opened (steps ++ [step]) kind bs rest ((step.declaredAt (rest.length, bs.length)).toList ++ names) := by
  obtain ⟨earlier, opening, inside, rfl, hopening, hbefore, hlevel, hinside, hnames⟩ := h
  refine ⟨earlier, opening, inside ++ [step], by simp, hopening, hbefore, hlevel, fun step' hstep' => ?_, ?_⟩
  · rcases mem_append.mp hstep' with hstep' | hstep'
    · exact hinside step' hstep'
    · rw [mem_singleton.mp hstep']
      exact hbefore.surrounds hafter
  · rw [filterMap_append, hnames, reverse_append]
    cases hdeclared : step.declaredAt (rest.length, (bs.length : Int)) <;> simp [hdeclared]

theorem Opened.keep (h : Opened steps kind bs rest names) (above : List Nest) (inner : List (List String))
    (hafter : step.after.Matched (above ++ ⟨kind, inner ++ b :: bs, pending⟩ :: rest))
    (hdeclared : step.declaredAt (rest.length, bs.length) = none) : Opened (steps ++ [step]) kind bs rest names := by
  have hsnoc := h.snoc above inner hafter
  rwa [hdeclared] at hsnoc

theorem Step.declaredAt_of_ne {level : Nat × Int} (h : step.before.level ≠ level) : step.declaredAt level = none := by
  unfold declaredAt
  split
  · exact if_neg h
  · rfl

theorem Bracketed.inside {n n' : Nest} (h : Bracketed steps (n :: ns)) (hbefore : step.before.Matched (n :: ns))
    (hafter : step.after.Matched (n' :: ns)) (hhead : ∀ inner b bs, n'.blocks = inner ++ b :: bs → bs ≠ [] →
      Opened (steps ++ [step]) n'.kind bs ns ((if inner = [] then n'.pending.toList else []) ++ b)) :
    Bracketed (steps ++ [step]) (n' :: ns) := by
  intro above inner kind b bs pending rest heq hbs
  cases above with
  | nil =>
    cases heq
    exact hhead inner b bs rfl hbs
  | cons _ above =>
    obtain ⟨_, rfl⟩ := List.cons.inj heq
    refine (h (n :: above) inner rfl hbs).keep (n' :: above) inner hafter (Step.declaredAt_of_ne fun hlevel => ?_)
    have := congrArg Prod.fst (hbefore.level_eq.symm.trans hlevel)
    simp at this
    omega

theorem Bracketed.keep (h : Bracketed steps ns) (hafter : step.after.Matched ns)
    (hdeclared : ∀ level, step.declaredAt level = none) : Bracketed (steps ++ [step]) ns := by
  intro above inner kind b bs pending rest heq hbs
  have hopened := h above inner heq hbs
  rw [heq] at hafter
  exact hopened.keep above inner hafter (hdeclared _)

theorem Bracketed.snoc (h : Bracketed steps ns) (hbefore : step.before.Matched ns) (hafter : step.after.Matched ns')
    (hnext : step.change.Next ns ns') : Bracketed (steps ++ [step]) ns' := by
  obtain ⟨change, before, after⟩ := step
  cases hnext with
  | @enter _ kind' =>
    intro above inner kind b bs pending rest heq hbs
    rw [heq] at hafter
    cases above with
    | nil => exact absurd (Nest.eq_nil_of_start (List.cons.inj heq).1) hbs
    | cons n above => exact (h above inner (List.cons.inj heq).2 hbs).keep (n :: above) inner hafter rfl
  | @leave n outer ns =>
    intro above inner kind b bs pending rest heq hbs
    have hopened := h (n :: above) inner (congrArg (n :: ·) heq) hbs
    rw [heq] at hafter
    exact hopened.keep above inner hafter rfl
  | beginBlock =>
    refine h.inside hbefore hafter fun inner b bs hblocks hbs => ?_
    cases inner with
    | nil =>
      cases hblocks
      refine ⟨steps, _, [], rfl, rfl, hbefore, ?_, by simp, by simp⟩
      rw [hafter.level_eq]
      simp
    | cons b' inner =>
      cases hblocks
      have hopened := (h [] inner rfl hbs).keep [] ([] :: inner) hafter rfl
      simpa using hopened
  | @endBlock _ b' =>
    refine h.inside hbefore hafter fun inner b bs hblocks hbs => ?_
    cases hblocks
    have hopened := (h [] (b' :: inner) rfl hbs).keep [] inner hafter rfl
    simpa using hopened
  | @declare _ _ _ x =>
    refine h.inside hbefore hafter fun inner b bs hblocks hbs => ?_
    cases hblocks
    cases inner with
    | nil =>
      have hopened := (h [] [] rfl hbs).snoc [] [] hafter
      rw [Step.declaredAt, hbefore.level_eq] at hopened
      simpa using hopened
    | cons b' inner =>
      have hopened := (h [] (b' :: inner) rfl hbs).keep [] (b' :: inner) hafter (Step.declaredAt_of_ne ?_)
      · simpa using hopened
      · rw [hbefore.level_eq]
        simp
        omega
  | @define _ b' =>
    refine h.inside hbefore hafter fun inner b bs hblocks hbs => ?_
    cases inner with
    | nil =>
      cases hblocks
      exact (h [] [] rfl hbs).keep [] [] hafter rfl
    | cons _ inner =>
      cases hblocks
      have hopened := (h [] (b' :: inner) rfl hbs).keep [] (_ :: inner) hafter rfl
      simpa using hopened
  | discard => exact h.keep hafter fun _ => rfl
  | resolve => exact h.keep hafter fun _ => rfl
  | write => exact h.keep hafter fun _ => rfl

theorem Tracks.bracketed (h : Tracks ns steps ns') (hjoined : s.Joined steps s') (hs : s.Matched ns)
    {earlier : List Step} (hearlier : Bracketed earlier ns) : Bracketed (earlier ++ steps) ns' := by
  induction h generalizing s earlier with
  | nil => rwa [append_nil]
  | @cons _ _ _ step steps henacts hnext _ ih =>
    obtain ⟨rfl, hjoined⟩ := hjoined
    have hafter := hs.next henacts hnext
    have hrest := ih hjoined hafter (hearlier.snoc hs hafter hnext)
    rwa [append_assoc] at hrest

theorem Joined.split (h : s.Joined (steps ++ steps') s') : ∃ m, s.Joined steps m ∧ m.Joined steps' s' := by
  induction steps generalizing s with
  | nil => exact ⟨s, rfl, h⟩
  | cons step steps ih =>
    obtain ⟨m, hm, hm'⟩ := ih h.2
    exact ⟨m, ⟨h.1, hm⟩, hm'⟩

/-- Each step is between two states in which the variables are in nested blocks, as they were begun before. -/
theorem Tracks.at_step {earlier later : List Step} (h : Tracks ns (earlier ++ step :: later) ns'')
    (hjoined : s.Joined (earlier ++ step :: later) s') (hs : s.Matched ns) (hstart : Bracketed [] ns) :
    ∃ ns1 ns2, step.before.Matched ns1 ∧ step.after.Matched ns2 ∧ step.change.Enacts step.before step.after ∧
      step.change.Next ns1 ns2 ∧ Bracketed earlier ns1 := by
  obtain ⟨ns1, hearlier, hlater⟩ := h.split
  obtain ⟨m, hm, rfl, hm'⟩ := hjoined.split
  have hbefore := hearlier.nested hm hs
  cases hlater with
  | cons henacts hnext _ =>
    exact ⟨ns1, _, hbefore, hbefore.next henacts hnext, henacts, hnext, hearlier.bracketed hm hs hstart⟩

/-- What is said of leaving blocks. The locals are in order before and after each step. Where blocks are left by a jump,
the code is written that the ends of these blocks would write, which takes exactly the deeper locals off the stack,
and nothing else changes. Where a block ends, the locals are removed that were declared in it since it began. -/
structure Unwinds (steps : List Step) : Prop where
  layered : ∀ step ∈ steps, ∀ f ∈ step.before.current :: step.before.enclosing
    ++ step.after.current :: step.after.enclosing,
    f.Layered
  discard : ∀ step ∈ steps, ∀ depth, step.change = .discard depth → ∃ line draft,
    step.after = { step.before with current := { step.before.current with draft } } ∧
    draft = (step.before.current.emitAll
      ((step.before.current.locals.filter (depth < ·.depth)).map Local.leave) line).draft ∧
    draft = ((fun f => Scope.endBlock f line)^[(step.before.current.depth - depth).toNat] step.before.current).draft
  endBlock : ∀ earlier closing later, steps = earlier ++ closing :: later → closing.change = .endBlock →
    ∃ before opening inside, earlier = before ++ opening :: inside ∧ opening.change = .beginBlock ∧
      (∀ step ∈ inside, opening.before.Surrounds step.after) ∧ closing.after.level = opening.before.level ∧
      ∃ removed, closing.before.current.locals = removed ++ closing.after.current.locals ∧
        removed.map Local.name = (inside.filterMap (Step.declaredAt opening.after.level)).reverse ∧
        closing.after.current.locals.map (fun l => (l.name, l.depth))
          = opening.before.current.locals.map fun l => (l.name, l.depth)

theorem Matched.layered (h : s.Matched ns) : ∀ f ∈ s.current :: s.enclosing, f.Layered := by
  unfold Matched at h
  generalize s.current :: s.enclosing = fs at h
  induction h with
  | nil => exact nofun
  | cons hf _ ih =>
    intro f hmem
    rcases mem_cons.mp hmem with rfl | hmem
    · exact hf.nests.layered
    · exact ih f hmem

theorem Matched.locals_eq (h : s.Matched (⟨kind, bs, none⟩ :: rest)) :
    s.current.locals.map (fun l => (l.name, l.depth)) = layers bs := by
  cases h with
  | cons hf _ => exact hf.nests.locals

theorem Tracks.unwinds (h : Tracks ns steps ns') (hjoined : s.Joined steps s') (hs : s.Matched ns)
    (hstart : Bracketed [] ns) : Unwinds steps where
  layered step hstep f hf := by
    obtain ⟨earlier, later, rfl⟩ := append_of_mem hstep
    obtain ⟨ns1, ns2, hbefore, hafter, _⟩ := h.at_step hjoined hs hstart
    rcases mem_append.mp hf with hf | hf
    · exact hbefore.layered f hf
    · exact hafter.layered f hf
  discard step hstep depth hchange := by
    obtain ⟨earlier, later, rfl⟩ := append_of_mem hstep
    obtain ⟨ns1, ns2, hbefore, _, henacts, hnext, _⟩ := h.at_step hjoined hs hstart
    rw [hchange] at henacts hnext
    obtain ⟨line, hafter⟩ := henacts
    cases hnext
    cases hbefore with
    | cons hf _ =>
      have hranked := hf.nests.ranked
      have hdeeper : step.before.current.deeperThan depth = step.before.current.locals.filter
          (step.before.current.depth - (step.before.current.depth - depth).toNat < ·.depth) := by
        rw [hranked.deeperThan_eq]
        refine filter_congr fun l hl => decide_eq_decide.mpr ?_
        have := hranked.le l hl
        omega
      refine ⟨line, (step.before.current.discardAbove depth line).draft, ?_, ?_, ?_⟩
      · rw [hafter, Scope.discardAbove, ← Scope.emitAll_eq]
      · rw [Scope.discardAbove, hranked.deeperThan_eq]
      · rw [hranked.endBlocks_draft, Scope.discardAbove, hdeeper]
  endBlock earlier closing later heq hchange := by
    subst heq
    obtain ⟨ns1, ns2, hbefore, hafter, henacts, hnext, hbracketed⟩ := h.at_step hjoined hs hstart
    rw [hchange] at henacts hnext
    obtain ⟨line, hmade⟩ := henacts
    cases hnext with
    | @endBlock kind b bs rest hbs =>
      obtain ⟨before, opening, inside, rfl, hopening, hopened, hlevel, hinside, hnames⟩ := hbracketed [] [] rfl hbs
      have hsplit : closing.before.current.locals
          = closing.before.current.deeperThan (closing.before.current.depth - 1) ++ closing.after.current.locals := by
        rw [hmade]
        exact takeWhile_append_dropWhile.symm
      refine ⟨before, opening, inside, rfl, hopening, hinside, hafter.level_eq.trans hopened.level_eq.symm,
        _, hsplit, ?_,
        hafter.locals_eq.trans hopened.locals_eq.symm⟩
      have hlocals := hbefore.locals_eq
      rw [hsplit, map_append, hafter.locals_eq, layers, append_left_inj] at hlocals
      have hremoved := congrArg (List.map Prod.fst) hlocals
      rw [hlevel, hnames, reverse_reverse]
      simpa [Function.comp_def] using hremoved

end Scopes

end Mudscript
