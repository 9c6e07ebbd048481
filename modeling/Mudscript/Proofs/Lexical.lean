import Mudscript.Proofs.Mirror
import Mudscript.Proofs.Nesting

/-!
# Lexical scope

What a name stands for is a question of the text around it: the innermost declaration of the name that is visible
in the function, or else in the nearest function around it that declares the name. An environment keeps record of
the declarations that are visible, and each of them has a number of its own, so that it is known from all others
that there are before or after it.

A compiler has nothing of the kind. It has slots, which one variable takes after another, and captures, which lead
from a function to the one around it. Histories put the two side by side: whatever the compiler does to its scopes,
the environment follows, and a name is resolved to the slot of the declaration it stands for, or to a capture that
leads there. The capture does so for as long as the function is being written.
-/

namespace Mudscript

open Compile (Access)
open List

namespace Lexical

/-! ### Environments -/

/-- A declaration of a variable, which has the time when it was made as its number. -/
structure Binding where
  number : Nat
  name : String

structure Region where
  number : Nat
  kind : RoutineKind
  /-- The declarations of each block, the innermost block and the newest declaration first. -/
  blocks : List (List Binding)
  /-- The declaration whose initializer is being written. -/
  pending : Option Binding := none

/-- The functions around a place in a text, innermost first. -/
structure Environment where
  regions : List Region
  time : Nat

inductive Operation
  | enter (kind : RoutineKind) (name : String)
  | leave
  | beginBlock
  | endBlock
  | declare (x : String)
  | define
  | resolve (x : String)
  /-- Nothing of this, but the state of the compiler may be another one. -/
  | other (c : Compiler)

/-- A function at its start. Methods and object units see their receiver in slot 0. -/
def Region.start (time : Nat) (kind : RoutineKind) : Region :=
  let name := match kind with
    | .method | .object => receiverName
    | .script | .function => ""
  { number := time, kind, blocks := [[⟨time, name⟩]] }

/-- What becomes of the innermost function. Variables are declared in blocks, inside of the block that slot 0 is in.
A name that is in the block already is not declared again. -/
inductive Region.Next (time : Nat) (r : Region) : Operation → Region → Prop
  | beginBlock : r.pending = none → Next time r .beginBlock { r with blocks := [] :: r.blocks }
  | endBlock {b bs} : r.pending = none → r.blocks = b :: bs → bs ≠ [] → Next time r .endBlock { r with blocks := bs }
  | declare {b bs x} : r.pending = none → r.blocks = b :: bs →
      bs ≠ [] → (∀ v ∈ b, v.name ≠ x) → Next time r (.declare x) { r with pending := some ⟨time, x⟩ }
  | declared {b bs x} : r.pending = none → r.blocks = b :: bs → (∃ v ∈ b, v.name = x) → Next time r (.declare x) r
  | define {v b bs} : r.pending = some v → r.blocks = b :: bs →
      bs ≠ [] → Next time r .define { r with blocks := (v :: b) :: bs, pending := none }
  | defined {v b bs} : r.pending = none → r.blocks = (v :: b) :: bs → Next time r .define r
  | resolve {x} : x ≠ "" → Next time r (.resolve x) r
  | other {c} : Next time r (.other c) r

inductive Environment.Next : Environment → Operation → Environment → Prop
  | enter {rs time kind x} : Next ⟨rs, time⟩ (.enter kind x) ⟨.start time kind :: rs, time + 1⟩
  | leave {r outer rest time} : r.pending = none → Next ⟨r :: outer :: rest, time⟩ .leave ⟨outer :: rest, time + 1⟩
  | inside {r r' rest time op} : r.Next time op r' → Next ⟨r :: rest, time⟩ op ⟨r' :: rest, time + 1⟩

/-- The declarations that are visible in a function, innermost first, and whether they are initialized. -/
def Region.visible (r : Region) : List (Binding × Bool) :=
  r.pending.toList.map (·, false) ++ r.blocks.flatten.map (·, true)

/-- The innermost declaration of a name in a function, with its slot. -/
def Region.lookup (x : String) : List (Binding × Bool) → Option (Nat × Binding × Bool)
  | [] => none
  | (b, initialized) :: outer => if b.name = x then some (outer.length, b, initialized) else Region.lookup x outer

/-- The declaration that a name stands for: how many functions around it is, its slot there, itself, and whether it
is initialized. -/
def lookup (x : String) : List Region → Option (Nat × Nat × Binding × Bool)
  | [] => none
  | r :: outer =>
    match Region.lookup x r.visible with
    | some (slot, b, initialized) => some (0, slot, b, initialized)
    | none => (lookup x outer).map fun (hops, slot, b, initialized) => (hops + 1, slot, b, initialized)

/-! ### Histories -/

/-- Two states of a function in which names mean the same. -/
structure Resembles (s s' : Scope) : Prop where
  kind_eq : s'.kind = s.kind
  locals_eq : s'.locals = s.locals
  captures_eq : s'.captures = s.captures
  depth_eq : s'.depth = s.depth
  pooled : s.draft.Pooled → s'.draft.Pooled

theorem Resembles.refl (s : Scope) : Resembles s s := ⟨rfl, rfl, rfl, rfl, id⟩

namespace Operation

def perform (c : Compiler) : Operation → Compiler
  | .enter kind x => (Compile.enterFunction kind x c).2
  | .leave => (Compile.leaveFunction c).2
  | .beginBlock => (Compile.beginBlock c).2
  | .endBlock => (Compile.endBlock c).2
  | .declare x => (Compile.declare x c).2
  | .define => (Compile.define c).2
  | .resolve x => (Compile.resolve x c).2
  | .other c' => c'

/-- An operation does not hit a limit. What is none of the operations leaves variables alone. -/
def Admissible (c : Compiler) : Operation → Prop
  | .declare x => c.scopes.current.declare x ≠ .error .tooManyLocals
  | .resolve x => (Compile.resolve x c).1 ≠ .error .tooManyUpvalues
  | .other c' => Resembles c.scopes.current c'.scopes.current ∧ c'.scopes.enclosing = c.scopes.enclosing
  | _ => True

end Operation

structure Point where
  compiler : Compiler
  environment : Environment

inductive Step : Point → Point → Prop
  | perform {c E E'} (op : Operation) : op.Admissible c → E.Next op E' → Step ⟨c, E⟩ ⟨op.perform c, E'⟩

abbrev Unfolds : Point → Point → Prop := Relation.ReflTransGen Step

/-- A point in the history of a unit. -/
def Point.Reached (p : Point) : Prop :=
  ∃ c kind x owner, c.scopes = ⟨.start kind x owner, []⟩ ∧ Unfolds ⟨c, ⟨[.start 0 kind], 1⟩⟩ p

/-! ### What the environment is like -/

def Region.numbers (r : Region) : List Nat := r.visible.map (·.1.number)

/-- Functions and declarations have numbers of their own, which have been taken before. -/
structure Environment.Ordered (E : Environment) : Prop where
  bindings : (E.time :: E.regions.flatMap Region.numbers).Pairwise (· > ·)
  regions : (E.time :: E.regions.map Region.number).Pairwise (· > ·)

variable {r r' : Region} {time : Nat} {op : Operation} {E E' : Environment} {x : String} {b : Binding}

theorem Region.numbers_eq (r : Region) :
    r.numbers = r.pending.toList.map Binding.number ++ r.blocks.flatten.map Binding.number := by
  rw [numbers, visible, map_append, map_map, map_map]
  rfl

theorem Region.Next.numbers (hnext : r.Next time op r') : r'.number = r.number ∧ r'.kind = r.kind ∧
    r'.numbers.Sublist (time :: r.numbers) := by
  have hsame : r.numbers.Sublist (time :: r.numbers) := sublist_cons_self _ _
  cases hnext with
  | resolve _ | other | beginBlock _ | declared _ _ _ | defined _ _ => exact ⟨rfl, rfl, hsame⟩
  | endBlock hpending hblocks _ =>
    refine ⟨rfl, rfl, .trans ?_ hsame⟩
    rw [numbers_eq, numbers_eq, hblocks, flatten_cons, map_append]
    exact (List.Sublist.refl _).append (sublist_append_right _ _)
  | declare hpending _ _ _ =>
    refine ⟨rfl, rfl, ?_⟩
    rw [numbers_eq, numbers_eq, hpending]
    exact List.Sublist.refl _
  | define hpending hblocks _ =>
    refine ⟨rfl, rfl, .trans ?_ hsame⟩
    rw [numbers_eq, numbers_eq, hpending, hblocks]
    exact List.Sublist.refl _

theorem Environment.Next.ordered (hnext : E.Next op E') (h : E.Ordered) : E'.Ordered := by
  have hlater : ∀ {now : Nat} {numbers numbers' : List Nat}, (now :: numbers).Pairwise (· > ·) →
      numbers'.Sublist (now :: numbers) → ((now + 1) :: numbers').Pairwise (· > ·) := by
    intro now numbers numbers' hnumbers hsub
    refine pairwise_cons.mpr ⟨fun n hn => ?_, hnumbers.sublist hsub⟩
    rcases mem_cons.mp (hsub.mem hn) with rfl | hn
    · exact Nat.lt_succ_self _
    · exact Nat.lt_succ_of_lt (rel_of_pairwise_cons hnumbers hn)
  obtain ⟨hbindings, hregions⟩ := h
  cases hnext with
  | enter => exact ⟨hlater hbindings (List.Sublist.refl _), hlater hregions (List.Sublist.refl _)⟩
  | leave _ =>
    refine ⟨hlater hbindings ?_, hlater hregions ?_⟩
    · exact (sublist_append_right _ _).trans (sublist_cons_self _ _)
    · exact (sublist_cons_self _ _).trans (sublist_cons_self _ _)
  | inside hinside =>
    obtain ⟨hnumber, _, hvisible⟩ := hinside.numbers
    refine ⟨hlater hbindings (hvisible.append_right _), hlater hregions ?_⟩
    rw [map_cons, hnumber]
    exact sublist_cons_self _ _

/-! ### Scopes and regions -/

/-- The locals of a function that is being compiled are there for the declarations that are visible. -/
structure Reflects (s : Scope) (r : Region) : Prop where
  kind_eq : s.kind = r.kind
  nests : s.Nests (r.blocks.map (·.map Binding.name)) (r.pending.map Binding.name)

variable {s s' : Scope}

theorem emit_pooled {d : Draft} (h : d.Pooled) (i : Instruction) (line : Nat) : (d.emit i line).Pooled :=
  h.of_eq (Draft.emit_constants d i line) (Draft.emit_entries d i line)

theorem emitAll_pooled (h : s.draft.Pooled) (is : List Instruction) (line : Nat) :
    (s.emitAll is line).draft.Pooled := by
  induction is generalizing s with
  | nil => exact h
  | cons i is ih => exact ih (emit_pooled h i line)

theorem endBlock_eq (s : Scope) (line : Nat) : (s.endBlock line).kind = s.kind ∧
    (s.endBlock line).captures = s.captures ∧ (s.draft.Pooled → (s.endBlock line).draft.Pooled) := by
  refine ⟨?_, ?_, fun h => emitAll_pooled h _ _⟩
  · show (s.emitAll _ line).kind = s.kind
    rw [Scope.emitAll_eq]
  · show (s.emitAll _ line).captures = s.captures
    rw [Scope.emitAll_eq]

namespace Reflects

theorem defined (h : Reflects s r) :
    s.locals.map (fun l => (l.name, l.isDefined)) = r.visible.map fun v => (v.1.name, v.2) := by
  rw [h.nests.defined, Region.visible, map_append, map_map, map_map, ← map_flatten, map_map]
  cases r.pending <;> rfl

theorem slot?_eq (h : Reflects s r) (x : String) : s.slot? x = match Region.lookup x r.visible with
    | none => .ok none
    | some (slot, _, initialized) => if initialized then .ok (some slot) else .error .ownInitializer := by
  have hdefined := h.defined
  unfold Scope.slot?
  generalize s.locals = ls, r.visible = vs at hdefined
  induction ls generalizing vs with
  | nil =>
    rw [map_eq_nil_iff.mp hdefined.symm]
    rfl
  | cons l ls ih =>
    obtain ⟨⟨b, initialized⟩, vs, rfl, hb, hrest⟩ := map_eq_cons_iff.mp hdefined.symm
    obtain ⟨hname, hinit⟩ := Prod.mk.inj hb
    rw [dropWhile_cons, Region.lookup]
    by_cases hx : b.name = x
    · have hlength := congrArg List.length hrest
      rw [length_map, length_map] at hlength
      rw [if_neg (by simp [← hname, hx]), if_pos hx]
      dsimp only
      rw [← hinit, hlength]
    · rw [if_pos (by simp [← hname, hx]), if_neg hx]
      exact ih _ hrest.symm

theorem touched (h : Reflects s r) (ht : s.Touched s') : Reflects s' r :=
  ⟨by rw [ht.rest]; exact h.kind_eq, h.nests.touched ht⟩

theorem resembles (h : Reflects s r) (hs : Resembles s s') : Reflects s' r :=
  ⟨hs.kind_eq.trans h.kind_eq, hs.depth_eq ▸ h.nests.depth, hs.locals_eq ▸ h.nests.locals⟩

end Reflects

theorem reflects_start (time : Nat) (kind : RoutineKind) (x : String) (owner : Option String) :
    Reflects (.start kind x owner) (.start time kind) := by
  cases kind <;> exact ⟨rfl, rfl, rfl⟩

/-! ### Captures -/

/-- Where captures lead, from a function outwards: how many functions around, and to which slot. -/
def follow : List Scope → Nat → Option (Nat × Nat)
  | [], _ => none
  | s :: outer, j => s.captures[j]?.bind fun c =>
      if c.fromLocal then some (1, c.index)
      else (follow outer c.index).map fun (hops, slot) => (hops + 1, slot)

def numberAt (rs : List Region) (hops slot : Nat) : Option Nat := rs[hops]?.bind (·.numbers.reverse[slot]?)

/-- The number of the declaration that a capture stands for. -/
def denotes (ss : List Scope) (rs : List Region) (j : Nat) : Option Nat :=
  (follow ss j).bind fun (hops, slot) => numberAt rs hops slot

variable {ss ss' outer outer' : List Scope} {rs rest : List Region} {j j' n hops slot : Nat} {v : Binding × Bool}

theorem Region.getElem?_of_lookup {vs : List (Binding × Bool)} (h : Region.lookup x vs = some (slot, v)) :
    (vs.map (·.1.number)).reverse[slot]? = some v.1.number := by
  induction vs with
  | nil => cases h
  | cons v' vs ih =>
    rw [Region.lookup] at h
    rw [map_cons, reverse_cons]
    split at h
    · cases h
      rw [← length_map, ← length_reverse, List.getElem?_concat_length]
    · have hget := ih h
      rw [List.getElem?_append_left (List.getElem?_eq_some_iff.mp hget).1, hget]

theorem numberAt_of_lookup (h : lookup x rs = some (hops, slot, v)) : numberAt rs hops slot = some v.1.number := by
  induction rs generalizing hops with
  | nil => cases h
  | cons r rest ih =>
    rw [lookup] at h
    split at h
    · rename_i hfound
      cases h
      exact Region.getElem?_of_lookup hfound
    · obtain ⟨_, hfound, heq⟩ := Option.map_eq_some_iff.mp h
      cases heq
      exact ih hfound

theorem denotes_cons (s : Scope) (outer : List Scope) (r : Region) (rest : List Region) (j : Nat) :
    denotes (s :: outer) (r :: rest) j = s.captures[j]?.bind fun c =>
      if c.fromLocal then numberAt rest 0 c.index else denotes outer rest c.index := by
  rw [denotes, follow]
  cases s.captures[j]? with
  | none => rfl
  | some c =>
    cases hlocal : c.fromLocal with
    | true => simp [numberAt, hlocal]
    | false => cases hfollow : follow outer c.index <;> simp [hlocal, hfollow, denotes, numberAt]

theorem denotes_nil (ss : List Scope) (j : Nat) : denotes ss [] j = none := by
  cases hfollow : follow ss j <;> simp [denotes, numberAt, hfollow]

theorem mem_of_numberAt (h : numberAt (r :: rest) 0 slot = some n) : n ∈ r.numbers :=
  mem_reverse.mp (mem_of_getElem? h)

theorem denotes_mem (h : denotes ss (r :: rest) j = some n) : n ∈ rest.flatMap Region.numbers := by
  induction rest generalizing ss r j with
  | nil =>
    cases ss with
    | nil => cases h
    | cons s outer =>
      rw [denotes_cons] at h
      obtain ⟨c, _, hc⟩ := Option.bind_eq_some_iff.mp h
      rw [denotes_nil] at hc
      split at hc <;> cases hc
  | cons r' rest ih =>
    cases ss with
    | nil => cases h
    | cons s outer =>
      rw [denotes_cons] at h
      obtain ⟨c, _, hc⟩ := Option.bind_eq_some_iff.mp h
      rw [flatMap_cons, mem_append]
      split at hc
      · exact .inl (mem_of_numberAt hc)
      · exact .inr (ih hc)

theorem denotes_inj (hdistinct : ∀ s ∈ ss, s.captures.toList.Nodup) (hnumbers : (rest.flatMap Region.numbers).Nodup)
    (h : denotes ss (r :: rest) j = some n) (h' : denotes ss (r :: rest) j' = some n) : j = j' := by
  induction rest generalizing ss r j j' with
  | nil => cases denotes_mem h
  | cons r' rest ih =>
    cases ss with
    | nil => cases h
    | cons s outer =>
      rw [forall_mem_cons] at hdistinct
      rw [flatMap_cons, nodup_append] at hnumbers
      rw [denotes_cons] at h h'
      obtain ⟨c, hget, hc⟩ := Option.bind_eq_some_iff.mp h
      obtain ⟨c', hget', hc'⟩ := Option.bind_eq_some_iff.mp h'
      have hsame : c = c' := by
        obtain ⟨fromLocal, index⟩ := c
        obtain ⟨fromLocal', index'⟩ := c'
        cases fromLocal <;> cases fromLocal'
        · exact congrArg (Capture.mk false) (ih hdistinct.2 hnumbers.2.1 hc hc')
        · exact absurd rfl (hnumbers.2.2 n (mem_of_numberAt hc') n (denotes_mem hc))
        · exact absurd rfl (hnumbers.2.2 n (mem_of_numberAt hc) n (denotes_mem hc'))
        · have hlt := (List.getElem?_eq_some_iff.mp hc).1
          exact congrArg (Capture.mk true)
            ((List.getElem?_inj hlt (nodup_reverse.mpr hnumbers.1)).mp (Eq.trans hc hc'.symm))
      subst hsame
      rw [← Array.getElem?_toList] at hget hget'
      exact (List.getElem?_inj (List.getElem?_eq_some_iff.mp hget).1 hdistinct.1).mp (hget.trans hget'.symm)

/-! ### The search for a variable -/

theorem addCapture_cases (s : Scope) (c : Capture) :
    (s.addCapture c).1 = .error .tooManyUpvalues ∨ ∃ j, (s.addCapture c).1 = .ok j := by
  unfold Scope.addCapture
  split
  · exact .inr ⟨_, rfl⟩
  · split
    · exact .inl rfl
    · exact .inr ⟨_, rfl⟩

/-- The search finds the declaration that the name stands for, unless a function on the way has too many captures. -/
theorem captureFrom_cases (h : List.Forall₂ Reflects outer rs) (s : Scope) (x : String) : match lookup x rs with
    | none => s.captureFrom x outer = (.ok none, s, outer) | some (_, _, _, true) =>
      (s.captureFrom x outer).1 = .error .tooManyUpvalues ∨ ∃ j, (s.captureFrom x outer).1 = .ok (some j)
    | some (_, _, _, false) => s.captureFrom x outer = (.error .ownInitializer, s, outer) := by
  have hadd : ∀ (s : Scope) (c : Capture),
      (s.addCapture c).1.map some = .error .tooManyUpvalues ∨ ∃ j, (s.addCapture c).1.map some = .ok (some j) := by
    intro s c
    rcases addCapture_cases s c with herror | ⟨j, hok⟩
    · rw [herror]
      exact .inl rfl
    · rw [hok]
      exact .inr ⟨j, rfl⟩
  induction h generalizing s with
  | nil => rfl
  | @cons e r outer rs he _ ih =>
    rw [lookup, Scope.captureFrom, he.slot?_eq]
    rcases Region.lookup x r.visible with _ | ⟨slot, _, _ | _⟩
    · have hrest := ih e
      rcases hfound : lookup x rs with _ | ⟨_, _, _, initialized⟩
      · rw [hfound] at hrest
        dsimp only at hrest ⊢
        rw [hrest]
        rfl
      · rw [hfound] at hrest
        simp only [Option.map_some] at hrest ⊢
        generalize e.captureFrom x outer = result at hrest ⊢
        obtain ⟨found, e', outer'⟩ := result
        cases initialized with
        | false =>
          cases hrest
          rfl
        | true =>
          rcases hrest with hrest | ⟨above, hrest⟩
          · cases hrest
            exact .inl rfl
          · cases hrest
            exact hadd s ⟨false, above⟩
    · rfl
    · exact hadd s ⟨true, slot⟩

theorem follow_of_keeps (h : List.Forall₂ Reflects outer rs) (hkeeps : s.Keeps x outer j) :
    ∃ hops slot v, lookup x rs = some (hops, slot, v) ∧ follow (s :: outer) j = some (hops + 1, slot) := by
  have hget : ∀ {s : Scope} {c : Capture} {j : Nat}, s.captures.findIdx? (· = c) = some j →
      s.captures[j]? = some c := by
    intro s c j hfind
    obtain ⟨hlt, hc, _⟩ := Array.findIdx?_eq_some_iff_getElem.mp hfind
    rw [Array.getElem?_eq_getElem hlt, of_decide_eq_true hc]
  induction h generalizing s j with
  | nil => exact hkeeps.elim
  | @cons e r outer rs he _ ih =>
    rw [lookup]
    rcases hkeeps with ⟨slot, hslot, hfind⟩ | ⟨hslot, above, habove, hfind⟩
    · rw [he.slot?_eq] at hslot
      match hlookup : Region.lookup x r.visible with
      | some (_, b, true) =>
        rw [hlookup] at hslot
        cases hslot
        refine ⟨0, slot, (b, true), rfl, ?_⟩
        rw [follow, hget hfind]
        rfl
      | some (_, _, false) | none =>
        rw [hlookup] at hslot
        cases hslot
    · rw [he.slot?_eq] at hslot
      match hlookup : Region.lookup x r.visible with
      | some (_, _, true) | some (_, _, false) =>
        rw [hlookup] at hslot
        cases hslot
      | none =>
        obtain ⟨hops, slot, v, hfound, hfollow⟩ := ih habove
        refine ⟨hops + 1, slot, v, by rw [hfound]; rfl, ?_⟩
        rw [follow, hget hfind, Option.bind_some, if_neg Bool.false_ne_true, hfollow]
        rfl

theorem captured_of_follow (hchained : Chained s outer) (h : follow (s :: outer) j = some (hops, slot)) :
    ∃ e l, (s :: outer)[hops]? = some e ∧ e.localAt? slot = some l ∧ l.captured = true := by
  induction outer generalizing s j hops with
  | nil =>
    rw [follow, show s.captures = #[] from hchained] at h
    cases h
  | cons e outer ih =>
    rw [follow] at h
    obtain ⟨c, hget, hc⟩ := Option.bind_eq_some_iff.mp h
    have hrefers := hchained.1 c (Array.mem_of_getElem? hget)
    split at hc
    · rename_i hlocal
      cases hc
      rw [Capture.RefersTo, if_pos hlocal] at hrefers
      obtain ⟨l, hl, _, hcaptured, _⟩ := hrefers
      exact ⟨e, l, rfl, hl, hcaptured⟩
    · obtain ⟨⟨hops', slot'⟩, hfollow, heq⟩ := Option.map_eq_some_iff.mp hc
      cases heq
      obtain ⟨e', l, he', hl, hcaptured⟩ := ih hchained.2 hfollow
      exact ⟨e', l, he', hl, hcaptured⟩

theorem addCapture_nodup {c : Capture} (h : s.addCapture c = (.ok j, s')) (hs : s.captures.toList.Nodup) :
    s'.captures.toList.Nodup := by
  unfold Scope.addCapture at h
  split at h
  · cases h
    exact hs
  · rename_i hnone
    split at h
    · cases h
    · cases h
      rw [Array.toList_push]
      refine hs.append (nodup_singleton _) (disjoint_singleton.mpr fun hmem => ?_)
      have hnot := Array.findIdx?_eq_none_iff.mp hnone c (Array.mem_toList_iff.mp hmem)
      simp at hnot

theorem captureFrom_nodup (h : s.captureFrom x outer = (.ok (some j), s', outer'))
    (hs : ∀ e ∈ s :: outer, e.captures.toList.Nodup) : ∀ e ∈ s' :: outer', e.captures.toList.Nodup := by
  induction outer generalizing s s' outer' j with
  | nil => cases h
  | cons e outer ih =>
    rw [forall_mem_cons] at hs
    rw [forall_mem_cons]
    rcases Scope.captureFrom_eq_some h with ⟨slot, _, hadd, rfl⟩ | ⟨_, above, e', outer1, hinner, hadd, rfl⟩
    · exact ⟨addCapture_nodup hadd hs.1, forall_mem_cons.mpr (forall_mem_cons.mp hs.2)⟩
    · exact ⟨addCapture_nodup hadd hs.1, ih hinner hs.2⟩

/-! ### Points of a history -/

def functions (c : Compiler) : List Scope := c.scopes.current :: c.scopes.enclosing

structure Point.Coupled (p : Point) : Prop where
  ordered : p.environment.Ordered
  reflects : List.Forall₂ Reflects (functions p.compiler) p.environment.regions
  chained : Chained p.compiler.scopes.current p.compiler.scopes.enclosing
  distinct : ∀ s ∈ functions p.compiler, s.captures.toList.Nodup
  pooled : ∀ s ∈ functions p.compiler, s.draft.Pooled

variable {c c' : Compiler} {p q : Point}

theorem constant_scopes (c : Compiler) (k : Constant) : (Compile.constant k c).2.scopes =
    c.scopes.withDraft (c.scopes.current.draft.addConstant k).2 := by
  rw [Compile.constant_apply]
  match c.scopes.current.draft.addConstant k with
  | (.ok index, d) => rfl
  | (.error fault, d) => exact Compiler.report_scopes _ _

theorem leaveFunction_scopes {e : Scope} (h : c.scopes.enclosing = e :: outer) :
    ∃ e', Resembles e e' ∧ (Compile.leaveFunction c).2.scopes = ⟨e', outer⟩ := by
  obtain ⟨c1, hc1⟩ : ∃ c1, (Compile.emitReturnNil c).2 = c1 := ⟨_, rfl⟩
  have henclosing : c1.scopes.enclosing = e :: outer := by
    rw [← hc1]
    exact h
  have hleave : c1.scopes.leave?.getD c1.scopes = ⟨e, outer⟩ := by
    rw [Scopes.leave?, henclosing]
    rfl
  have hrest : (Compile.leaveFunction c).2.scopes = ((do
      let index ← Compile.constant (.routine c1.scopes.current.toRoutine)
      Compile.emit (.closure index c1.scopes.current.captures.toList) : Compile Unit)
      { c1 with scopes := c1.scopes.leave?.getD c1.scopes }).2.scopes := by
    rw [← hc1]
    rfl
  have hconstant := constant_scopes { c1 with scopes := ⟨e, outer⟩ } (.routine c1.scopes.current.toRoutine)
  rw [hrest, hleave, Compile.bind_apply]
  generalize Compile.constant _ _ = result at hconstant ⊢
  obtain ⟨index, c3⟩ := result
  have hemit : (Compile.emit (.closure index c1.scopes.current.captures.toList) c3).2.scopes
      = c3.scopes.emit (.closure index c1.scopes.current.captures.toList) c3.previous.line := rfl
  rw [hemit, show c3.scopes = _ from hconstant]
  refine ⟨_, ?_, rfl⟩
  exact ⟨rfl, rfl, rfl, rfl, fun hpooled => emit_pooled (Draft.addConstant_pooled hpooled _) _ _⟩

theorem declare_scopes (c : Compiler) (x : String) : (Compile.declare x c).2.scopes =
    match c.scopes.current.declare x with
    | .ok s => ⟨s, c.scopes.enclosing⟩ | .error _ => c.scopes := by
  have hdeclare : Compile.declare x c = (match c.scopes.current.declare x with
      | .ok s => (Compile.modifyScope fun _ => s).as (.declare x)
      | .error fault => Compile.mistake (.scope fault) : Compile Unit) c := rfl
  rw [hdeclare]
  cases c.scopes.current.declare x with
  | ok s => rfl
  | error fault => exact Compiler.report_scopes _ _

theorem reflects_of_touched (h : List.Forall₂ Reflects ss rs) (ht : List.Forall₂ Scope.Touched ss ss') :
    List.Forall₂ Reflects ss' rs := by
  induction ht generalizing rs with
  | nil => exact h
  | cons hs _ ih =>
    cases h with
    | cons hr hrest => exact .cons (hr.touched hs) (ih hrest)

theorem upvalue?_eq (s : Scopes) (x : String) {found} {current : Scope}
    (h : s.current.captureFrom x s.enclosing = (found, current, outer)) : s.upvalue? x = (found, ⟨current, outer⟩) := by
  rw [Scopes.upvalue?, h]

namespace Point.Coupled

variable {r : Region} {rest : List Region}

theorem cases (h : p.Coupled) : ∃ r rest, p.environment.regions = r :: rest ∧
    Reflects p.compiler.scopes.current r ∧ List.Forall₂ Reflects p.compiler.scopes.enclosing rest := by
  obtain ⟨r, rest, hr, hrest, heq⟩ := forall₂_cons_left_iff.mp h.reflects
  exact ⟨r, rest, heq, hr, hrest⟩

theorem resolve_local (h : p.Coupled) (hfound : lookup x p.environment.regions = some (0, slot, v)) :
    Compile.resolve x p.compiler = (if v.2 then .ok (.local_ slot) else .error .ownInitializer, p.compiler) := by
  obtain ⟨r, rest, heq, hr, _⟩ := h.cases
  rw [heq, lookup] at hfound
  split at hfound
  · rename_i initialized hlookup
    cases hfound
    rw [Compile.resolve_apply, hr.slot?_eq, hlookup]
    cases initialized <;> rfl
  · obtain ⟨_, _, heq⟩ := Option.map_eq_some_iff.mp hfound
    cases heq

theorem resolve_around (h : p.Coupled) (hfound : ∀ slot v, lookup x p.environment.regions ≠ some (0, slot, v)) :
    p.compiler.scopes.current.slot? x = .ok none ∧ ∃ rest, List.Forall₂ Reflects p.compiler.scopes.enclosing rest ∧
      lookup x p.environment.regions = (lookup x rest).map fun (hops, slot, v) => (hops + 1, slot, v) := by
  obtain ⟨r, rest, heq, hr, hrest⟩ := h.cases
  rw [heq] at hfound ⊢
  cases hlookup : Region.lookup x r.visible with
  | some found =>
    refine absurd ?_ (hfound found.1 found.2)
    rw [lookup, hlookup]
  | none =>
    refine ⟨?_, rest, hrest, ?_⟩
    · rw [hr.slot?_eq, hlookup]
    · rw [lookup, hlookup]

theorem resolve_none (h : p.Coupled) (hfound : lookup x p.environment.regions = none) :
    ∃ c', Compile.resolve x p.compiler = (.ok (if p.compiler.scopes.inObject
        then .property (Compile.constant (.text x) p.compiler).1
        else .global (Compile.constant (.text x) p.compiler).1), c') ∧
      c'.scopes = p.compiler.scopes.withDraft (p.compiler.scopes.current.draft.addConstant (.text x)).2 := by
  obtain ⟨hslot, rest, hrest, hlookup⟩ := h.resolve_around (x := x) (by rw [hfound]; exact nofun)
  rw [hfound] at hlookup
  have hnone := captureFrom_cases hrest p.compiler.scopes.current x
  rw [Option.map_eq_none_iff.mp hlookup.symm] at hnone
  have hscopes := constant_scopes p.compiler (.text x)
  rw [Compile.resolve_apply, hslot, upvalue?_eq _ _ hnone]
  refine ⟨(Compile.constant (.text x) p.compiler).2, ?_, hscopes⟩
  have hobject : (Compile.constant (.text x) p.compiler).2.scopes.inObject = p.compiler.scopes.inObject := by
    rw [hscopes]
    rfl
  rw [← hobject]
  rfl

theorem resolve_outer (h : p.Coupled) (hx : x ≠ "") (hfound : lookup x p.environment.regions = some (hops + 1, slot, v))
    (hlimit : (Compile.resolve x p.compiler).1 ≠ .error .tooManyUpvalues) :
    if v.2 then ∃ j c', Compile.resolve x p.compiler = (.ok (.upvalue j), c') ∧
      List.Forall₂ Scope.Touched (functions p.compiler) (functions c') ∧
      Chained c'.scopes.current c'.scopes.enclosing ∧ (∀ s ∈ functions c', s.captures.toList.Nodup) ∧
      follow (functions c') j = some (hops + 1, slot)
    else Compile.resolve x p.compiler = (.error .ownInitializer, p.compiler) := by
  obtain ⟨hslot, rest, hrest, hlookup⟩ := h.resolve_around (x := x) (by rw [hfound]; exact nofun)
  rw [hfound] at hlookup
  obtain ⟨⟨_, _, b, initialized⟩, hlookup', heq'⟩ := Option.map_eq_some_iff.mp hlookup.symm
  cases heq'
  have hcases := captureFrom_cases hrest p.compiler.scopes.current x
  rw [hlookup'] at hcases
  have hresolve := Compile.resolve_apply x p.compiler
  rw [hslot] at hresolve
  cases initialized with
  | false =>
    rw [upvalue?_eq _ _ hcases] at hresolve
    exact hresolve
  | true =>
    match hcapture : p.compiler.scopes.current.captureFrom x p.compiler.scopes.enclosing with
    | (found, current, outer) =>
      rw [upvalue?_eq _ _ hcapture] at hresolve
      rw [hcapture] at hcases
      rcases hcases with herror | ⟨j, hok⟩
      · cases herror
        exact absurd (congrArg Prod.fst hresolve) hlimit
      · cases hok
        have hsearched := (Scope.captureFrom_eq_ok hx hcapture).1
        obtain ⟨_, _, _, hfound', hfollow⟩ := follow_of_keeps
          (reflects_of_touched hrest hsearched.outer_touched) (Scope.keeps_of_captureFrom hx hcapture)
        rw [hlookup'] at hfound'
        cases hfound'
        exact ⟨j, _, hresolve, .cons hsearched.touched hsearched.outer_touched, hsearched.chained h.chained,
          captureFrom_nodup hcapture h.distinct, hfollow⟩

theorem resolve_scopes (h : p.Coupled) (hx : x ≠ "")
    (hlimit : (Compile.resolve x p.compiler).1 ≠ .error .tooManyUpvalues) :
    (∃ s, Resembles p.compiler.scopes.current s ∧
      (Compile.resolve x p.compiler).2.scopes = ⟨s, p.compiler.scopes.enclosing⟩) ∨
    List.Forall₂ Scope.Touched (functions p.compiler) (functions (Compile.resolve x p.compiler).2) ∧
      Chained (Compile.resolve x p.compiler).2.scopes.current (Compile.resolve x p.compiler).2.scopes.enclosing ∧
      ∀ s ∈ functions (Compile.resolve x p.compiler).2, s.captures.toList.Nodup := by
  match hfound : lookup x p.environment.regions with
  | none =>
    obtain ⟨c', hresolve, hscopes⟩ := h.resolve_none hfound
    rw [hresolve]
    refine .inl ⟨_, ?_, hscopes⟩
    exact ⟨rfl, rfl, rfl, rfl, fun hpooled => Draft.addConstant_pooled hpooled _⟩
  | some (0, _, _) =>
    rw [h.resolve_local hfound]
    exact .inl ⟨_, .refl _, rfl⟩
  | some (hops + 1, _, _, false) =>
    rw [show Compile.resolve x p.compiler = _ from h.resolve_outer hx hfound hlimit]
    exact .inl ⟨_, .refl _, rfl⟩
  | some (hops + 1, _, _, true) =>
    obtain ⟨j, c', hresolve, htouched, hchained, hdistinct, _⟩ := h.resolve_outer hx hfound hlimit
    rw [hresolve]
    exact .inr ⟨htouched, hchained, hdistinct⟩

end Point.Coupled

/-! ### One step after another -/

def Extends (s s' : Scope) : Prop := s.captures.toList <+: s'.captures.toList

theorem Extends.of_captures_eq (h : s'.captures = s.captures) : Extends s s' := by
  unfold Extends
  exact h ▸ prefix_rfl

/-- What a step does to the functions that are being written. -/
inductive Point.Progress (p q : Point) : Prop
  | enter {s : Scope} {r : Region} : functions q.compiler = s :: functions p.compiler →
      q.environment.regions = r :: p.environment.regions → r.number = p.environment.time → Progress p q
  | leave {s : Scope} {ss : List Scope} {r : Region} : functions p.compiler = s :: ss →
      List.Forall₂ Extends ss (functions q.compiler) → p.environment.regions = r :: q.environment.regions → Progress p q
  | inside {r r' : Region} {rest : List Region} : List.Forall₂ Extends (functions p.compiler) (functions q.compiler) →
      p.environment.regions = r :: rest → q.environment.regions = r' :: rest → r'.number = r.number → Progress p q

theorem extends_refl (ss : List Scope) : List.Forall₂ Extends ss ss :=
  forall₂_same.mpr fun _ _ => prefix_rfl

theorem forall_of_touched {P : Scope → Prop} (hP : ∀ s s', s.Touched s' → P s → P s')
    (h : List.Forall₂ Scope.Touched ss ss') (hss : ∀ s ∈ ss, P s) : ∀ s ∈ ss', P s := by
  induction h with
  | nil => exact hss
  | cons hs _ ih =>
    rw [forall_mem_cons] at hss ⊢
    exact ⟨hP _ _ hs hss.1, ih hss.2⟩

theorem Point.Coupled.inside (h : (⟨c, ⟨r :: rest, time⟩⟩ : Point).Coupled) (hnext : r.Next time op r')
    (hscopes : c'.scopes = ⟨s', c.scopes.enclosing⟩) (hreflects : Reflects s' r')
    (hcaptures : s'.captures = c.scopes.current.captures) (hpooled : c.scopes.current.draft.Pooled → s'.draft.Pooled) :
    (⟨c', ⟨r' :: rest, time + 1⟩⟩ : Point).Coupled ∧
      (⟨c, ⟨r :: rest, time⟩⟩ : Point).Progress ⟨c', ⟨r' :: rest, time + 1⟩⟩ := by
  obtain ⟨hordered, hreflects0, hchained, hdistinct, hpools⟩ := h
  have hfunctions : functions c' = s' :: c.scopes.enclosing := by rw [functions, hscopes]
  cases hreflects0 with
  | cons _ hrest =>
    rw [functions, forall_mem_cons] at hdistinct hpools
    refine ⟨⟨(Environment.Next.inside hnext).ordered hordered, ?_, ?_, ?_, ?_⟩, .inside ?_ rfl rfl hnext.numbers.1⟩
    · rw [hfunctions]
      exact .cons hreflects hrest
    · rw [hscopes]
      exact hchained.of_captures_eq hcaptures
    · rw [hfunctions, forall_mem_cons, hcaptures]
      exact hdistinct
    · rw [hfunctions, forall_mem_cons]
      exact ⟨hpooled hpools.1, hpools.2⟩
    · rw [hfunctions]
      exact .cons (Extends.of_captures_eq hcaptures) (extends_refl _)

theorem Step.coupled (hstep : Step p q) (h : p.Coupled) : q.Coupled ∧ p.Progress q := by
  obtain ⟨op, hadmissible, hnext⟩ := hstep
  rename_i c E E'
  have hordered := hnext.ordered h.ordered
  cases hnext with
  | @enter rs time kind x =>
    refine ⟨⟨hordered, .cons (reflects_start _ _ _ _) h.reflects, ⟨nofun, h.chained⟩,
      forall_mem_cons.mpr ⟨nodup_nil, h.distinct⟩,
      forall_mem_cons.mpr ⟨Draft.pooled_empty, h.pooled⟩⟩, .enter rfl rfl rfl⟩
  | @leave r outer rest time _ =>
    obtain ⟨_, _, heq, _, houter⟩ := h.cases
    cases heq
    obtain ⟨e, ss, he, hrest, henclosing⟩ := forall₂_cons_right_iff.mp houter
    replace henclosing : c.scopes.enclosing = e :: ss := henclosing
    obtain ⟨e', hsame, hscopes⟩ := leaveFunction_scopes henclosing
    have hfunctions : functions (Operation.leave.perform c) = e' :: ss := by
      show functions (Compile.leaveFunction c).2 = _
      rw [functions, hscopes]
    have hchained := h.chained
    have hdistinct := h.distinct
    have hpooled := h.pooled
    rw [functions, forall_mem_cons] at hdistinct hpooled
    rw [henclosing] at hchained
    rw [henclosing, forall_mem_cons] at hdistinct hpooled
    refine ⟨⟨hordered, ?_, ?_, ?_, ?_⟩, .leave rfl ?_ rfl⟩
    · rw [hfunctions]
      exact .cons (he.resembles hsame) hrest
    · show Chained (Compile.leaveFunction c).2.scopes.current (Compile.leaveFunction c).2.scopes.enclosing
      rw [hscopes]
      exact hchained.2.of_captures_eq hsame.captures_eq
    · rw [hfunctions, forall_mem_cons, hsame.captures_eq]
      exact hdistinct.2
    · rw [hfunctions, forall_mem_cons]
      exact ⟨hsame.pooled hpooled.2.1, hpooled.2.2⟩
    · rw [hfunctions]
      show List.Forall₂ Extends c.scopes.enclosing _
      rw [henclosing]
      exact .cons (Extends.of_captures_eq hsame.captures_eq) (extends_refl _)
  | @inside r r' rest time _ hinside =>
    obtain ⟨r0, rest0, heq, hr, _⟩ := h.cases
    cases heq
    have hnests := hr.nests
    cases hinside with
    | beginBlock hpending =>
      rw [hpending] at hnests
      exact h.inside (.beginBlock hpending) rfl ⟨hr.kind_eq, hpending ▸ hnests.beginBlock⟩ rfl id
    | endBlock hpending hblocks hbs =>
      obtain ⟨hkind, hcaptures, hpooled⟩ := endBlock_eq c.scopes.current c.previous.line
      rw [hpending, hblocks] at hnests
      exact h.inside (.endBlock hpending hblocks hbs) rfl
        ⟨hkind.trans hr.kind_eq, hpending ▸ hnests.endBlock rfl rfl⟩ hcaptures hpooled
    | @declare b bs x hpending hblocks hbs hnew =>
      have hlocals := hnests.locals
      rw [hpending, hblocks] at hnests
      have hany : ¬ c.scopes.current.ofBlock.any (·.name = x) = true := by
        rw [hnests.any_eq]
        simpa using hnew
      have hroom : ¬ c.scopes.current.locals.length = maxSlots := fun hfull =>
        hadmissible (by rw [Scope.declare, if_neg hany, if_pos hfull])
      have hscopes := declare_scopes c x
      rw [Scope.declare, if_neg hany, if_neg hroom] at hscopes
      rw [hpending] at hlocals
      exact h.inside (.declare hpending hblocks hbs hnew) hscopes
        ⟨hr.kind_eq, hr.nests.depth, congrArg ((x, Local.undefinedDepth) :: ·) hlocals⟩ rfl id
    | @declared b bs x hpending hblocks hold =>
      rw [hpending, hblocks] at hnests
      have hany : c.scopes.current.ofBlock.any (·.name = x) = true := by
        rw [hnests.any_eq]
        simpa using hold
      have hscopes := declare_scopes c x
      rw [Scope.declare, if_pos hany] at hscopes
      exact h.inside (.declared hpending hblocks hold) hscopes hr rfl id
    | define hpending hblocks hbs =>
      have hkind : c.scopes.current.define.kind = c.scopes.current.kind := by rw [Scope.define_eq]
      have hcaptures : c.scopes.current.define.captures = c.scopes.current.captures := by rw [Scope.define_eq]
      rw [hpending, hblocks] at hnests
      refine h.inside (.define hpending hblocks hbs) rfl ⟨hkind.trans hr.kind_eq, hnests.define ?_⟩ hcaptures ?_
      · simpa using hbs
      · rw [Scope.define_eq]
        exact id
    | defined hpending hblocks =>
      rw [hpending, hblocks] at hnests
      have hdefine := hnests.define_eq
      have hscopes : (Operation.define.perform c).scopes = ⟨c.scopes.current.define, c.scopes.enclosing⟩ := rfl
      exact h.inside (.defined hpending hblocks) hscopes (hdefine.symm ▸ hr) (by rw [hdefine])
        (by rw [hdefine]; exact id)
    | @resolve x hx =>
      rcases h.resolve_scopes hx hadmissible with ⟨s, hs, hscopes⟩ | ⟨htouched, hchained, hdistinct⟩
      · exact h.inside (.resolve hx) hscopes (hr.resembles hs) hs.captures_eq hs.pooled
      · refine ⟨⟨hordered, reflects_of_touched h.reflects htouched, hchained, hdistinct, ?_⟩, .inside ?_ rfl rfl rfl⟩
        · refine forall_of_touched (fun s s' hs hpooled => ?_) htouched h.pooled
          rw [hs.rest]
          exact hpooled
        · exact htouched.imp fun _ _ hs => hs.captures
    | @other c' =>
      obtain ⟨hs, henclosing⟩ := hadmissible
      have hscopes : c'.scopes = ⟨c'.scopes.current, c.scopes.enclosing⟩ := by rw [← henclosing]
      exact h.inside (.other (c := c')) hscopes (hr.resembles hs) hs.captures_eq hs.pooled

theorem Unfolds.coupled (h : Unfolds p q) (hp : p.Coupled) : q.Coupled := by
  induction h with
  | refl => exact hp
  | tail _ hstep ih => exact (hstep.coupled ih).1

theorem Unfolds.time_le (h : Unfolds p q) : p.environment.time ≤ q.environment.time := by
  induction h with
  | refl => exact Nat.le_refl _
  | tail _ hstep ih =>
    obtain ⟨op, _, hnext⟩ := hstep
    refine Nat.le_trans ih ?_
    cases hnext <;> exact Nat.le_succ _

theorem Point.Reached.coupled (h : p.Reached) : p.Coupled := by
  obtain ⟨c, kind, x, owner, hscopes, hunfolds⟩ := h
  have hfunctions : functions c = [.start kind x owner] := by rw [functions, hscopes]
  refine Unfolds.coupled hunfolds ⟨⟨?_, ?_⟩, ?_, ?_, ?_, ?_⟩
  · exact pairwise_pair.mpr Nat.zero_lt_one
  · exact pairwise_pair.mpr Nat.zero_lt_one
  · rw [hfunctions]
    exact .cons (reflects_start _ _ _ _) .nil
  · rw [hscopes]
    rfl
  · rw [hfunctions]
    exact forall_mem_singleton.mpr nodup_nil
  · rw [hfunctions]
    exact forall_mem_singleton.mpr Draft.pooled_empty

/-! ### What a capture stands for -/

/-- What a capture of a function stands for, if the function is being written. -/
def meaning (f j : Nat) : List Scope → List Region → Option Nat
  | s :: outer, r :: rest => if r.number = f then denotes (s :: outer) (r :: rest) j else meaning f j outer rest
  | _, _ => none

def Point.meaning (p : Point) (f j : Nat) : Option Nat :=
  Lexical.meaning f j (functions p.compiler) p.environment.regions

def Point.function (p : Point) : Option Nat := p.environment.regions.head?.map Region.number

variable {f : Nat}

theorem denotes_mono (h : List.Forall₂ Extends ss ss') (r' : Region) (hd : denotes ss (r :: rest) j = some n) :
    denotes ss' (r' :: rest) j = some n := by
  induction h generalizing r r' rest j with
  | nil => cases hd
  | @cons s s' outer outer' hs _ ih =>
    rw [denotes_cons] at hd ⊢
    obtain ⟨c, hget, hc⟩ := Option.bind_eq_some_iff.mp hd
    rw [getElem?_of_extends hs hget, Option.bind_some]
    cases hlocal : c.fromLocal with
    | true =>
      rw [hlocal] at hc
      exact hc
    | false =>
      rw [hlocal] at hc
      cases rest with
      | nil =>
        rw [if_neg Bool.false_ne_true, denotes_nil] at hc
        cases hc
      | cons r1 rest => exact ih r1 hc

theorem meaning_mono (h : List.Forall₂ Extends ss ss') (hnumber : r'.number = r.number)
    (hm : meaning f j ss (r :: rest) = some n) : meaning f j ss' (r' :: rest) = some n := by
  induction h generalizing r r' rest with
  | nil => cases hm
  | @cons s s' outer outer' hs houter ih =>
    rw [meaning] at hm ⊢
    rw [hnumber]
    split at hm
    · rename_i heq
      rw [if_pos heq]
      exact denotes_mono (.cons hs houter) r' hm
    · rename_i hne
      rw [if_neg hne]
      cases rest with
      | nil =>
        rw [meaning] at hm
        · cases hm
        · exact nofun
      | cons r1 rest => exact ih rfl hm

theorem mem_of_meaning (h : meaning f j ss rs = some n) : f ∈ rs.map Region.number := by
  induction rs generalizing ss with
  | nil =>
    cases ss <;> cases h
  | cons r rest ih =>
    cases ss with
    | nil => cases h
    | cons s outer =>
      rw [meaning] at h
      split at h
      · rename_i heq
        exact heq ▸ mem_cons_self
      · exact mem_cons_of_mem _ (ih h)

namespace Point.Progress

theorem mem (h : p.Progress q) (hf : f ≠ p.environment.time) (hmem : f ∈ q.environment.regions.map Region.number) :
    f ∈ p.environment.regions.map Region.number := by
  cases h with
  | enter _ hregions hnumber =>
    rw [hregions, map_cons, hnumber] at hmem
    exact (mem_cons.mp hmem).resolve_left hf
  | leave _ _ hregions =>
    rw [hregions]
    exact mem_cons_of_mem _ hmem
  | inside _ hregions hregions' hnumber =>
    rw [hregions', map_cons, hnumber] at hmem
    rw [hregions]
    exact hmem

theorem meaning_eq (h : p.Progress q) (hp : p.environment.Ordered) (hf : f ≠ p.environment.time)
    (hmem : f ∈ q.environment.regions.map Region.number) (hm : p.meaning f j = some n) : q.meaning f j = some n := by
  unfold Point.meaning at hm ⊢
  cases h with
  | enter hfunctions hregions hnumber =>
    rw [hfunctions, hregions, Lexical.meaning, if_neg (hnumber ▸ hf.symm)]
    exact hm
  | @leave s ss r hfunctions hextends hregions =>
    have hregions' := hp.regions
    rw [hregions, map_cons, pairwise_cons, pairwise_cons] at hregions'
    rw [hfunctions, hregions, Lexical.meaning, if_neg (Nat.ne_of_gt (hregions'.2.1 f hmem))] at hm
    match hq : q.environment.regions with
    | [] =>
      rw [hq] at hmem
      cases hmem
    | r' :: rest =>
      rw [hq] at hm
      exact meaning_mono hextends rfl hm
  | inside hextends hregions hregions' hnumber =>
    rw [hregions] at hm
    rw [hregions']
    exact meaning_mono hextends hnumber hm

end Point.Progress

/-- A capture stands for the same declaration for as long as its function is being written. -/
theorem Unfolds.meaning_eq (h : Unfolds p q) (hp : p.Coupled) (hm : p.meaning f j = some n)
    (hmem : f ∈ q.environment.regions.map Region.number) : q.meaning f j = some n := by
  have hlt : f < p.environment.time :=
    rel_of_pairwise_cons hp.ordered.regions (mem_of_meaning hm)
  induction h with
  | refl => exact hm
  | tail hunfolds hstep ih =>
    have hq := Unfolds.coupled hunfolds hp
    have hne := Nat.ne_of_lt (Nat.lt_of_lt_of_le hlt (Unfolds.time_le hunfolds))
    have hprogress := (hstep.coupled hq).2
    exact hprogress.meaning_eq hq.ordered hne hmem (ih (hprogress.mem hne hmem))

def Point.after (p : Point) (x : String) : Point :=
  ⟨(Compile.resolve x p.compiler).2, ⟨p.environment.regions, p.environment.time + 1⟩⟩

theorem Point.step_after (p : Point) (hx : x ≠ "") (hregions : p.environment.regions ≠ [])
    (hlimit : (Compile.resolve x p.compiler).1 ≠ .error .tooManyUpvalues) : Step p (p.after x) := by
  obtain ⟨c, regions, time⟩ := p
  cases regions with
  | nil => exact absurd rfl hregions
  | cons r rest => exact .perform (.resolve x) hlimit (.inside (.resolve hx))

namespace Point.Coupled

theorem exists_upvalue (h : p.Coupled) (hx : x ≠ "")
    (hfound : lookup x p.environment.regions = some (hops + 1, slot, b, true))
    (hlimit : (Compile.resolve x p.compiler).1 ≠ .error .tooManyUpvalues) (hf : p.function = some f) :
    ∃ j, (Compile.resolve x p.compiler).1 = .ok (.upvalue j) ∧
      follow (functions (p.after x).compiler) j = some (hops + 1, slot) ∧ (p.after x).meaning f j = some b.number := by
  obtain ⟨j, c', hresolve, _, _, _, hfollow⟩ := h.resolve_outer hx hfound hlimit
  have hafter : (p.after x).compiler = c' := congrArg Prod.snd hresolve
  refine ⟨j, congrArg Prod.fst hresolve, hafter ▸ hfollow, ?_⟩
  obtain ⟨r, rest, hregions, _, _⟩ := h.cases
  rw [function, hregions] at hf
  cases hf
  have hnumber := numberAt_of_lookup hfound
  rw [hregions] at hnumber
  unfold Point.meaning
  rw [hafter, show (p.after x).environment.regions = _ from hregions, functions, Lexical.meaning, if_pos rfl, denotes,
    show follow (_ :: _) j = _ from hfollow, Option.bind_some]
  exact hnumber

theorem lookup_of_upvalue (h : p.Coupled) (hx : x ≠ "")
    (hresolve : (Compile.resolve x p.compiler).1 = .ok (.upvalue j)) :
    ∃ hops slot b, lookup x p.environment.regions = some (hops + 1, slot, b, true) := by
  match hfound : lookup x p.environment.regions with
  | none =>
    obtain ⟨c', heq, _⟩ := h.resolve_none hfound
    rw [heq] at hresolve
    cases hobject : p.compiler.scopes.inObject <;> rw [hobject] at hresolve <;> cases hresolve
  | some (0, _, _, initialized) =>
    rw [h.resolve_local hfound] at hresolve
    cases initialized <;> cases hresolve
  | some (hops + 1, slot, b, true) => exact ⟨hops, slot, b, rfl⟩
  | some (_ + 1, _, _, false) =>
    rw [h.resolve_outer hx hfound (by rw [hresolve]; exact nofun)] at hresolve
    cases hresolve

theorem inObject_eq (h : p.Coupled) : p.compiler.scopes.inObject = p.environment.regions.any (·.kind = .object) := by
  have hreflects := h.reflects
  show (functions p.compiler).any _ = _
  generalize functions p.compiler = ss at hreflects
  generalize p.environment.regions = rs at hreflects
  induction hreflects with
  | nil => rfl
  | cons hr _ ih => rw [any_cons, any_cons, ih, hr.kind_eq]

theorem meaning_inj (h : p.Coupled) (hf : p.function = some f) (hj : p.meaning f j = some n)
    (hj' : p.meaning f j' = some n) : j = j' := by
  obtain ⟨r, rest, hregions, _, _⟩ := h.cases
  rw [function, hregions] at hf
  cases hf
  unfold Point.meaning at hj hj'
  rw [hregions, functions, Lexical.meaning, if_pos rfl] at hj hj'
  have hbindings := h.ordered.bindings
  rw [hregions, flatMap_cons] at hbindings
  refine denotes_inj h.distinct ?_ hj hj'
  exact (pairwise_append.mp (pairwise_cons.mp hbindings).2).2.1.imp Nat.ne_of_gt

end Point.Coupled

/-! ### Resolution -/

/-- What is said of a name that is resolved to a capture of the function: it leads to the slot of the declaration,
and the variable there is marked. -/
structure Point.Captures (p : Point) (x : String) (j hops slot : Nat) (b : Binding) : Prop where
  follow_eq : follow (functions (p.after x).compiler) j = some (hops, slot)
  captured : ∃ e l, (functions (p.after x).compiler)[hops]? = some e ∧ e.localAt? slot = some l ∧ l.captured = true
  /-- The capture stands for the declaration until the function ends. -/
  lasts : ∀ f q, p.function = some f → Unfolds (p.after x) q → f ∈ q.environment.regions.map Region.number →
    q.meaning f j = some b.number
  /-- Another name of the function has the same capture if it stands for the same declaration, and only then. -/
  shared : ∀ q y j', Unfolds (p.after x) q → q.function = p.function → y ≠ "" →
    (Compile.resolve y q.compiler).1 = .ok (.upvalue j') →
      (j' = j ↔ (lookup y q.environment.regions).map (·.2.2.1.number) = some b.number)

theorem Point.Coupled.captures (h : p.Coupled) (hx : x ≠ "")
    (hfound : lookup x p.environment.regions = some (hops + 1, slot, b, true))
    (hlimit : (Compile.resolve x p.compiler).1 ≠ .error .tooManyUpvalues) :
    ∃ j, (Compile.resolve x p.compiler).1 = .ok (.upvalue j) ∧ p.Captures x j (hops + 1) slot b := by
  obtain ⟨r, rest, hregions, _, _⟩ := h.cases
  have hf : p.function = some r.number := by rw [function, hregions]; rfl
  obtain ⟨j, hresolve, hfollow, hmeaning⟩ := h.exists_upvalue hx hfound hlimit hf
  have hafter := ((p.step_after hx (by rw [hregions]; exact nofun) hlimit).coupled h).1
  have hlasts : ∀ f q, p.function = some f → Unfolds (p.after x) q → f ∈ q.environment.regions.map Region.number →
      q.meaning f j = some b.number := by
    intro f q hf' hunfolds hmem
    cases hf.symm.trans hf'
    exact Unfolds.meaning_eq hunfolds hafter hmeaning hmem
  refine ⟨j, hresolve, hfollow, captured_of_follow hafter.chained hfollow, hlasts, ?_⟩
  intro q y j' hunfolds hsame hy hresolve'
  have hq := Unfolds.coupled hunfolds hafter
  obtain ⟨hops', slot', b', hfound'⟩ := hq.lookup_of_upvalue hy hresolve'
  have hlimit' : (Compile.resolve y q.compiler).1 ≠ .error .tooManyUpvalues := by
    rw [hresolve']
    exact nofun
  have hf' := hsame.trans hf
  obtain ⟨_, heq, _, hmeaning'⟩ := hq.exists_upvalue hy hfound' hlimit' hf'
  cases hresolve'.symm.trans heq
  -- Both captures are seen at the point after the second search.
  obtain ⟨r', rest', hregions', _, _⟩ := hq.cases
  have hstep := q.step_after hy (by rw [hregions']; exact nofun) hlimit'
  have hmem : r.number ∈ (q.after y).environment.regions.map Region.number := by
    rw [function, hregions'] at hf'
    show _ ∈ q.environment.regions.map Region.number
    rw [hregions', ← Option.some.inj hf']
    exact mem_cons_self
  have hfirst := hlasts _ (q.after y) hf (hunfolds.tail hstep) hmem
  rw [hfound', Option.map_some, Option.some_inj]
  constructor
  · rintro rfl
    exact Option.some.inj (hmeaning'.symm.trans hfirst)
  · intro hnumber
    exact (hstep.coupled hq).1.meaning_inj hf' (hnumber ▸ hmeaning') hfirst

/-- A name is resolved to what it stands for in the text. -/
theorem resolve_lexical (hp : p.Reached) (hx : x ≠ "")
    (hlimit : (Compile.resolve x p.compiler).1 ≠ .error .tooManyUpvalues) : (match lookup x p.environment.regions with
      | some (0, slot, _, true) => (Compile.resolve x p.compiler).1 = .ok (.local_ slot)
      | some (hops + 1, slot, b, true) =>
        ∃ j, (Compile.resolve x p.compiler).1 = .ok (.upvalue j) ∧ p.Captures x j (hops + 1) slot b
      | some (_, _, _, false) => (Compile.resolve x p.compiler).1 = .error .ownInitializer
      | none => ∀ index d, p.compiler.scopes.current.draft.addConstant (.text x) = (.ok index, d) →
        (Compile.resolve x p.compiler).1 = .ok (if p.environment.regions.any (·.kind = .object)
          then .property index else .global index) ∧
        (p.after x).compiler.scopes.current.draft.constants[index]? = some (.text x)) ∧
    ((Compile.resolve x p.compiler).1 = .error .ownInitializer ↔
      ∃ hops slot b, lookup x p.environment.regions = some (hops, slot, b, false)) := by
  have h := hp.coupled
  match hfound : lookup x p.environment.regions with
  | none =>
    obtain ⟨c', hresolve, hscopes⟩ := h.resolve_none hfound
    have hafter : (p.after x).compiler = c' := congrArg Prod.snd hresolve
    rw [hafter, hresolve, hscopes, Compile.constant_apply, h.inObject_eq]
    refine ⟨fun index d hadd => ?_, nofun, nofun⟩
    rw [hadd]
    exact ⟨rfl, (Draft.addConstant_adds (h.pooled _ mem_cons_self) hadd).get⟩
  | some (0, slot, b, initialized) =>
    rw [h.resolve_local hfound]
    cases initialized with
    | true => exact ⟨rfl, nofun, nofun⟩
    | false => exact ⟨rfl, fun _ => ⟨_, _, _, rfl⟩, fun _ => rfl⟩
  | some (hops + 1, slot, b, false) =>
    rw [h.resolve_outer hx hfound hlimit]
    exact ⟨rfl, fun _ => ⟨_, _, _, rfl⟩, fun _ => rfl⟩
  | some (hops + 1, slot, b, true) =>
    obtain ⟨j, hresolve, hcaptures⟩ := h.captures hx hfound hlimit
    refine ⟨⟨j, hresolve, hcaptures⟩, ?_⟩
    rw [hresolve]
    exact ⟨nofun, nofun⟩

/-- A variable two functions around, which hides another one of its name. -/
theorem resolve_lexical_hiding : ∃ (p : Point) (b : Binding), p.Reached ∧
    lookup "x" p.environment.regions = some (2, 2, b, true) ∧ b.number = 5 ∧
    ∃ j, (Compile.resolve "x" p.compiler).1 = .ok (.upvalue j) ∧ p.Captures "x" j 2 2 b := by
  let c : Compiler :=
    { unread := [], endLine := 1, previous := .endOfText 1, current := .endOfText 1,
      scopes := ⟨.start .script "" none, []⟩, owner := none }
  have hblock : ∀ {c E E'}, E.Next .beginBlock E' → Unfolds ⟨c, E⟩ ⟨_, E'⟩ := fun hnext =>
    .single (.perform .beginBlock trivial hnext)
  have hvariable : ∀ {c E E1 E' s}, c.scopes.current.declare "x" = .ok s → E.Next (.declare "x") E1 →
      E1.Next .define E' → Unfolds ⟨c, E⟩ ⟨_, E'⟩ := fun hroom hdeclare hdefine =>
    .head (.perform (.declare "x") (fun hfull => by cases hroom.symm.trans hfull) hdeclare)
      (.single (.perform .define trivial hdefine))
  have henter : ∀ {c E E'}, E.Next (.enter .function "f") E' → Unfolds ⟨c, E⟩ ⟨_, E'⟩ := fun hnext =>
    .single (.perform (.enter .function "f") trivial hnext)
  have hunfolds := (hblock (c := c) (E := ⟨[.start 0 .script], 1⟩) (.inside (.beginBlock rfl))).trans <|
    (hvariable rfl (.inside (.declare rfl rfl (by decide) (forall_mem_nil _)))
      (.inside (.define rfl rfl (by decide)))).trans <|
    (hblock (.inside (.beginBlock rfl))).trans <|
    (hvariable rfl (.inside (.declare rfl rfl (by decide) (forall_mem_nil _)))
      (.inside (.define rfl rfl (by decide)))).trans <|
    (henter .enter).trans (henter .enter)
  have hp : ∃ p : Point, p.Reached ∧ ∃ b : Binding, lookup "x" p.environment.regions = some (2, 2, b, true) ∧
      b.number = 5 ∧ p.compiler.scopes = ⟨.start .function "f" none, [.start .function "f" none,
        { Scope.start .script "" none with
          locals := [⟨"x", 2, false⟩, ⟨"x", 1, false⟩, ⟨"", 0, false⟩], depth := 2 }]⟩ :=
    ⟨_, ⟨c, .script, "", none, rfl, hunfolds⟩, _, rfl, rfl, rfl⟩
  obtain ⟨p, hp, b, hfound, hnumber, hscopes⟩ := hp
  have hresolve : (Compile.resolve "x" p.compiler).1 = .ok (.upvalue 0) := by
    rw [Compile.resolve_apply, hscopes]
    simp [Scope.slot?, Scope.start, Scopes.upvalue?, Scope.captureFrom, Local.isDefined, Local.undefinedDepth,
      Scope.addCapture, maxSlots, Except.map]
  have hmain := (resolve_lexical (x := "x") hp (by decide) (fun hfull => by cases hresolve.symm.trans hfull)).1
  rw [hfound] at hmain
  exact ⟨p, b, hp, hfound, hnumber, hmain⟩

end Lexical

end Mudscript
