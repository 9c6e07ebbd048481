import Mudscript.Proofs.Draft
import Mudscript.Proofs.Edits

/-!
# How scopes develop

While a construct is compiled its function gains constants, captures and, in declarations, locals; the
locals it had stay where they are and may become captured. The functions around it gain captures and
captured locals, and nothing is written to them. `Scopes.Follows` says this of the scopes before and
after, and `Scopes.Settled` is what holds of the scopes at every point: in particular each capture of
a function refers to a defined local of the next function that is marked as captured, or to a capture
of that function.
-/

namespace Mudscript

open List

variable {c : Capture} {ls ls' : List Local} {l : Local} {i slot : Nat} {e e' : Scope} {name : String}

/-! ### Locals -/

/-- The same local, which may have become captured. -/
structure Local.Marked (l l' : Local) : Prop where
  name_eq : l'.name = l.name
  depth_eq : l'.depth = l.depth
  captured : l.captured = true → l'.captured = true

theorem Local.Marked.refl (l : Local) : l.Marked l := ⟨rfl, rfl, id⟩

theorem Local.Marked.trans {l' l'' : Local} (h : l.Marked l') (h' : l'.Marked l'') : l.Marked l'' :=
  ⟨h'.name_eq.trans h.name_eq, h'.depth_eq.trans h.depth_eq, h'.captured ∘ h.captured⟩

theorem Local.Marked.isDefined_eq {l' : Local} (h : l.Marked l') : l'.isDefined = l.isDefined := by
  rw [Local.isDefined, Local.isDefined, h.depth_eq]

abbrev Marks : List Local → List Local → Prop := List.Forall₂ Local.Marked

theorem Marks.refl (ls : List Local) : Marks ls ls := by
  induction ls with
  | nil => exact .nil
  | cons l rest ih => exact .cons (.refl l) ih

theorem Marks.trans {ls''} (h : Marks ls ls') (h' : Marks ls' ls'') : Marks ls ls'' := by
  induction h generalizing ls'' with
  | nil => exact h'
  | cons hl _ ih =>
    cases h' with
    | cons hl' hrest' => exact .cons (hl.trans hl') (ih hrest')

theorem Marks.depth_le (h : Marks ls ls') {depth : Int}
    (hle : ∀ l ∈ ls, l.depth ≤ depth) : ∀ l ∈ ls', l.depth ≤ depth := by
  induction h with
  | nil => exact hle
  | cons hl _ ih =>
    intro l hmem
    rcases mem_cons.mp hmem with rfl | hmem
    · rw [hl.depth_eq]
      exact hle _ mem_cons_self
    · exact ih (fun l hl => hle l (mem_cons_of_mem _ hl)) l hmem

theorem Marks.modify (ls : List Local) (i : Nat) : Marks ls (ls.modify i fun l => { l with captured := true }) := by
  induction ls generalizing i with
  | nil =>
    rw [modify_nil]
    exact .nil
  | cons l rest ih =>
    cases i with
    | zero => exact .cons ⟨rfl, rfl, fun _ => rfl⟩ (Marks.refl rest)
    | succ i => exact .cons (.refl l) (ih i)

theorem Marks.getElem? (h : Marks ls ls') (hget : ls[i]? = some l) : ∃ l', ls'[i]? = some l' ∧ l.Marked l' := by
  induction h generalizing i with
  | nil => cases hget
  | cons hl _ ih =>
    cases i with
    | zero =>
      cases hget
      exact ⟨_, rfl, hl⟩
    | succ i => exact ih hget

theorem Marks.reverse (h : Marks ls ls') : Marks ls.reverse ls'.reverse :=
  rel_reverse h

namespace Scope

def localAt? (s : Scope) (slot : Nat) : Option Local := s.locals.reverse[slot]?

theorem lt_of_localAt? {s : Scope} (h : s.localAt? slot = some l) : slot < s.locals.length := by
  have hlt := (List.getElem?_eq_some_iff.mp h).1
  rwa [length_reverse] at hlt

theorem slot?_eq_some {s : Scope} (h : s.slot? name = .ok (some slot)) :
    ∃ l, s.localAt? slot = some l ∧ l.name = name ∧ l.isDefined = true := by
  unfold slot? at h
  have hsplit := takeWhile_append_dropWhile (p := fun l : Local => decide (l.name ≠ name))
    (l := s.locals)
  revert h hsplit
  cases hdrop : s.locals.dropWhile fun l => decide (l.name ≠ name) with
  | nil =>
    intro h _
    cases h
  | cons l outer =>
    intro h hsplit
    have hname : l.name = name := by
      have hhead := List.head?_dropWhile_not (fun l : Local => decide (l.name ≠ name)) s.locals
      rw [hdrop] at hhead
      simpa using hhead
    dsimp only at h
    split at h
    · rename_i hdefined
      cases h
      refine ⟨l, ?_, hname, hdefined⟩
      rw [localAt?, ← hsplit]
      simp
    · cases h

theorem localAt?_of_append {s s' : Scope} {new old} (hsplit : s'.locals = new ++ old)
    (hold : Marks s.locals old) (h : s.localAt? slot = some l) : ∃ l', s'.localAt? slot = some l' ∧ l.Marked l' := by
  obtain ⟨l', hget, hmarked⟩ := hold.reverse.getElem? h
  refine ⟨l', ?_, hmarked⟩
  have hlt := (List.getElem?_eq_some_iff.mp hget).1
  rw [localAt?, hsplit, reverse_append, List.getElem?_append_left hlt, hget]

theorem localAt?_markCaptured {s : Scope} (h : s.localAt? slot = some l) :
    (s.markCaptured slot).localAt? slot = some { l with captured := true } := by
  have hlt := lt_of_localAt? h
  rw [localAt?, List.getElem?_reverse hlt] at h
  have hlength : (s.markCaptured slot).locals.length = s.locals.length := length_modify _ _ _
  rw [localAt?, List.getElem?_reverse (by omega), hlength]
  show (s.locals.modify (s.locals.length - 1 - slot) _)[s.locals.length - 1 - slot]? = _
  rw [List.getElem?_modify_eq, h]
  rfl

/-- A function that is being compiled, before and after an inner function was. -/
structure Touched (s s' : Scope) : Prop where
  rest : s' = { s with locals := s'.locals, captures := s'.captures }
  locals : Marks s.locals s'.locals
  captures : s.captures.toList <+: s'.captures.toList

theorem Touched.refl (s : Scope) : s.Touched s := ⟨rfl, .refl _, prefix_rfl⟩

theorem Touched.trans {s s' s'' : Scope} (h : s.Touched s') (h' : s'.Touched s'') : s.Touched s'' := by
  refine ⟨?_, h.locals.trans h'.locals, h.captures.trans h'.captures⟩
  rw [h'.rest, h.rest]

theorem Touched.refl_all (outer : List Scope) : List.Forall₂ Touched outer outer := by
  induction outer with
  | nil => exact .nil
  | cons e outer ih => exact .cons (.refl e) ih

theorem Touched.trans_all {outer outer' outer''} (h : List.Forall₂ Touched outer outer')
    (h' : List.Forall₂ Touched outer' outer'') : List.Forall₂ Touched outer outer'' := by
  induction h generalizing outer'' with
  | nil => exact h'
  | cons he _ ih =>
    cases h' with
    | cons he' houter' => exact .cons (he.trans he') (ih houter')

theorem Touched.localAt? {s s' : Scope} (h : s.Touched s')
    (hget : s.localAt? slot = some l) : ∃ l', s'.localAt? slot = some l' ∧ l.Marked l' :=
  localAt?_of_append (nil_append _).symm h.locals hget

theorem markCaptured_touched (s : Scope) (slot : Nat) : s.Touched (s.markCaptured slot) :=
  ⟨rfl, Marks.modify _ _, prefix_rfl⟩

end Scope

/-- What a capture stands for in the function around: a defined local that is marked as captured, or
one of the captures there. -/
def Capture.RefersTo (c : Capture) (outer : Scope) : Prop :=
  if c.fromLocal then
    ∃ l, outer.localAt? c.index = some l ∧ l.isDefined = true ∧ l.captured = true ∧ l.name ≠ ""
  else c.index < outer.captures.size

theorem Capture.RefersTo.mono {s s' : Scope} (h : c.RefersTo s)
    (hlocals : ∀ slot l, s.localAt? slot = some l → ∃ l', s'.localAt? slot = some l' ∧ l.Marked l')
    (hcaptures : s.captures.toList <+: s'.captures.toList) : c.RefersTo s' := by
  unfold Capture.RefersTo at h ⊢
  split
  · rename_i hlocal
    rw [if_pos hlocal] at h
    obtain ⟨l, hget, hdefined, hcaptured, hname⟩ := h
    obtain ⟨l', hget', hmarked⟩ := hlocals _ l hget
    exact ⟨l', hget', hmarked.isDefined_eq.trans hdefined, hmarked.captured hcaptured,
      hmarked.name_eq ▸ hname⟩
  · rename_i hlocal
    rw [if_neg hlocal] at h
    have hle := hcaptures.length_le
    rw [Array.length_toList, Array.length_toList] at hle
    omega

theorem Capture.RefersTo.touched {s s' : Scope} (h : c.RefersTo s) (ht : s.Touched s') : c.RefersTo s' :=
  h.mono (fun _ _ => ht.localAt?) ht.captures

/-- The captures of a function, and of the functions around it, refer to the next function. The
outermost function captures nothing. -/
def Chained : Scope → List Scope → Prop
  | s, [] => s.captures = #[]
  | s, e :: outer => (∀ c ∈ s.captures, c.RefersTo e) ∧ Chained e outer

/-- The name of the variable that a capture of a function stands for. -/
def captureName : Scope → List Scope → Nat → Option String
  | _, [], _ => none
  | s, e :: outer, index =>
    s.captures[index]?.bind fun c =>
      if c.fromLocal then (e.localAt? c.index).map Local.name else captureName e outer c.index

theorem getElem?_of_extends {α : Type} {xs ys : Array α} (h : xs.toList <+: ys.toList) {a : α}
    (hget : xs[i]? = some a) : ys[i]? = some a := by
  obtain ⟨t, ht⟩ := h
  rw [← Array.getElem?_toList] at hget ⊢
  have hlt := (List.getElem?_eq_some_iff.mp hget).1
  rw [← ht, List.getElem?_append_left hlt, hget]

theorem captureName_touched {s s' : Scope} (hs : s.captures.toList <+: s'.captures.toList)
    {outer outer'} (ht : List.Forall₂ Scope.Touched outer outer') {index : Nat}
    (h : captureName s outer index = some name) : captureName s' outer' index = some name := by
  induction ht generalizing s s' index with
  | nil => cases h
  | @cons e e' outer outer' he _ ih =>
    obtain ⟨c, hget, hc⟩ := Option.bind_eq_some_iff.mp h
    refine Option.bind_eq_some_iff.mpr ⟨c, getElem?_of_extends hs hget, ?_⟩
    split
    · rename_i hlocal
      rw [if_pos hlocal] at hc
      obtain ⟨l, hlocalAt, rfl⟩ := Option.map_eq_some_iff.mp hc
      obtain ⟨l', hlocalAt', hmarked⟩ := he.localAt? hlocalAt
      rw [hlocalAt', Option.map_some, hmarked.name_eq]
    · rename_i hlocal
      rw [if_neg hlocal] at hc
      exact ih he.captures hc

/-! ### Adding captures -/

theorem Scope.addCapture_eq_ok {s s' : Scope} {index : Nat} (h : s.addCapture c = (.ok index, s')) :
    s' = { s with captures := s'.captures } ∧ s.captures.toList <+: s'.captures.toList ∧
      s'.captures[index]? = some c ∧ (∀ c' ∈ s'.captures, c' ∈ s.captures ∨ c' = c) ∧
      (s.captures.size ≤ maxSlots → s'.captures.size ≤ maxSlots) := by
  unfold addCapture at h
  split at h
  · rename_i found hfound
    cases h
    obtain ⟨hlt, hc, _⟩ := Array.findIdx?_eq_some_iff_getElem.mp hfound
    refine ⟨rfl, prefix_rfl, ?_, fun _ => .inl, id⟩
    rw [Array.getElem?_eq_getElem hlt, of_decide_eq_true hc]
  · split at h
    · cases h
    · rename_i hroom
      cases h
      refine ⟨rfl, ?_, Array.getElem?_push_size, fun c' hc' => ?_, fun hle => ?_⟩
      · rw [Array.toList_push]
        exact prefix_append _ _
      · exact Array.mem_push.mp hc'
      · rw [Array.size_push]
        omega

/-- A function whose slots, captures and constants all fit into operands. -/
structure Scope.Fits (s : Scope) : Prop where
  locals : s.locals.length ≤ maxSlots
  captures : s.captures.size ≤ maxSlots
  pooled : s.draft.Pooled

theorem Scope.Touched.locals_length {s s' : Scope} (h : s.Touched s') :
    s'.locals.length = s.locals.length := h.locals.length_eq.symm

/-- What a search of the enclosing functions leaves behind when it ends without a mistake. -/
structure Searched (s : Scope) (outer : List Scope) (s' : Scope) (outer' : List Scope) : Prop where
  touched : s.Touched s'
  outer_touched : List.Forall₂ Scope.Touched outer outer'
  chained : Chained s outer → Chained s' outer'
  fits : (∀ e ∈ s :: outer, e.Fits) → ∀ e ∈ s' :: outer', e.Fits

theorem Chained.of_captures_eq {s s' : Scope} {outer} (h : Chained s outer)
    (heq : s'.captures = s.captures) : Chained s' outer := by
  cases outer with
  | nil => exact heq.trans h
  | cons e outer =>
    refine ⟨?_, h.2⟩
    rw [heq]
    exact h.1

theorem forall_fits_cons {s : Scope} {outer} :
    (∀ e ∈ s :: outer, e.Fits) ↔ s.Fits ∧ ∀ e ∈ outer, e.Fits := forall_mem_cons

theorem Searched.addCapture {s s' : Scope} {outer outer'} {index : Nat}
    (hadd : s.addCapture c = (.ok index, s')) (he : Searched e outer e' outer') (hc : c.RefersTo e') :
    Searched s (e :: outer) s' (e' :: outer') := by
  obtain ⟨hrest, hprefix, _, honly, hfew⟩ := Scope.addCapture_eq_ok hadd
  refine ⟨⟨?_, ?_, hprefix⟩, .cons he.touched he.outer_touched, fun h => ⟨?_, he.chained h.2⟩, ?_⟩
  · rw [hrest]
  · rw [hrest]
    exact Marks.refl _
  · intro c' hc'
    rcases honly c' hc' with hold | rfl
    · exact (h.1 c' hold).touched he.touched
    · exact hc
  · intro h
    rw [forall_fits_cons] at h ⊢
    refine ⟨⟨?_, hfew h.1.captures, ?_⟩, he.fits h.2⟩
    · rw [hrest]
      exact h.1.locals
    · rw [hrest]
      exact h.1.pooled

theorem lt_of_captureName {s : Scope} {outer} {index : Nat}
    (h : captureName s outer index = some name) : index < s.captures.size := by
  cases outer with
  | nil => cases h
  | cons e outer =>
    obtain ⟨c, hget, _⟩ := Option.bind_eq_some_iff.mp h
    exact (Array.getElem?_eq_some_iff.mp hget).1

theorem Searched.refl (s : Scope) (outer : List Scope) : Searched s outer s outer :=
  ⟨.refl s, Scope.Touched.refl_all outer, id, id⟩

theorem Searched.markCaptured (e : Scope) (slot : Nat) (outer : List Scope) :
    Searched e outer (e.markCaptured slot) outer := by
  refine ⟨e.markCaptured_touched slot, Scope.Touched.refl_all outer, fun h => h.of_captures_eq rfl, ?_⟩
  intro h
  rw [forall_fits_cons] at h ⊢
  refine ⟨⟨?_, h.1.captures, h.1.pooled⟩, h.2⟩
  rw [(e.markCaptured_touched slot).locals_length]
  exact h.1.locals

theorem Searched.skip {s : Scope} {outer outer'} (he : Searched e outer e' outer') :
    Searched s (e :: outer) s (e' :: outer') := by
  refine ⟨.refl s, .cons he.touched he.outer_touched, fun h => ⟨?_, he.chained h.2⟩, ?_⟩
  · exact fun c hc => (h.1 c hc).touched he.touched
  · intro h
    rw [forall_fits_cons] at h ⊢
    exact ⟨h.1, he.fits h.2⟩

theorem Scope.captureFrom_eq_some {s s' : Scope} {x : String} {outer outer'} {index : Nat}
    (h : s.captureFrom x (e :: outer) = (.ok (some index), s', outer')) :
    (∃ slot, e.slot? x = .ok (some slot) ∧ s.addCapture ⟨true, slot⟩ = (.ok index, s') ∧
      outer' = e.markCaptured slot :: outer) ∨
    (e.slot? x = .ok none ∧ ∃ above e' outer1, e.captureFrom x outer = (.ok (some above), e', outer1) ∧
      s.addCapture ⟨false, above⟩ = (.ok index, s') ∧ outer' = e' :: outer1) := by
  rw [captureFrom] at h
  split at h
  · cases h
  · rename_i slot hslot
    match hadd : s.addCapture ⟨true, slot⟩ with
    | (.error fault, s1) =>
      rw [hadd] at h
      cases h
    | (.ok index, s1) =>
      rw [hadd] at h
      cases h
      exact .inl ⟨slot, hslot, hadd, rfl⟩
  · rename_i hslot
    match hinner : e.captureFrom x outer with
    | (.error fault, e', outer1) | (.ok none, e', outer1) =>
      rw [hinner] at h
      cases h
    | (.ok (some above), e', outer1) =>
      rw [hinner] at h
      match hadd : s.addCapture ⟨false, above⟩ with
      | (.error fault, s1) =>
        simp only [hadd] at h
        cases h
      | (.ok index, s1) =>
        simp only [hadd] at h
        cases h
        exact .inr ⟨hslot, above, e', outer1, rfl, hadd, rfl⟩

theorem Scope.captureFrom_eq_none {s s' : Scope} {x : String} {outer outer'}
    (h : s.captureFrom x (e :: outer) = (.ok none, s', outer')) :
    s' = s ∧ ∃ e' outer1, e.captureFrom x outer = (.ok none, e', outer1) ∧ outer' = e' :: outer1 := by
  rw [captureFrom] at h
  split at h
  · cases h
  · rename_i slot _
    match hadd : s.addCapture ⟨true, slot⟩ with
    | (.error fault, s1) | (.ok index, s1) =>
      rw [hadd] at h
      cases h
  · match hinner : e.captureFrom x outer with
    | (.error fault, e', outer1) =>
      rw [hinner] at h
      cases h
    | (.ok none, e', outer1) =>
      rw [hinner] at h
      cases h
      exact ⟨rfl, e', outer1, rfl, rfl⟩
    | (.ok (some above), e', outer1) =>
      rw [hinner] at h
      match hadd : s.addCapture ⟨false, above⟩ with
      | (.error fault, s1) | (.ok index, s1) =>
        simp only [hadd] at h
        cases h

theorem Scope.captureFrom_eq_ok {s s' : Scope} {outer outer' found} (hname : name ≠ "")
    (h : s.captureFrom name outer = (.ok found, s', outer')) :
    Searched s outer s' outer' ∧ ∀ index, found = some index →
      captureName s' outer' index = some name := by
  induction outer generalizing s s' outer' found with
  | nil =>
    cases h
    exact ⟨.refl s [], fun _ h => nomatch h⟩
  | cons e outer ih =>
    cases found with
    | none =>
      obtain ⟨rfl, e', outer1, hinner, rfl⟩ := captureFrom_eq_none h
      exact ⟨(ih hinner).1.skip, fun _ h => nomatch h⟩
    | some index =>
      rcases captureFrom_eq_some h with ⟨slot, hslot, hadd, rfl⟩ | ⟨_, above, e', outer1, hinner, hadd, rfl⟩
      · obtain ⟨l, hget, hl, hdefined⟩ := slot?_eq_some hslot
        have hmark := localAt?_markCaptured hget
        refine ⟨.addCapture hadd (.markCaptured e slot outer) ⟨_, hmark, hdefined, rfl, hl ▸ hname⟩, ?_⟩
        rintro _ ⟨⟩
        refine Option.bind_eq_some_iff.mpr ⟨_, (addCapture_eq_ok hadd).2.2.1, ?_⟩
        show ((e.markCaptured slot).localAt? slot).map Local.name = _
        rw [hmark, Option.map_some, hl]
      · obtain ⟨hsearched, habove⟩ := ih hinner
        refine ⟨.addCapture hadd hsearched (lt_of_captureName (habove above rfl)), ?_⟩
        rintro _ ⟨⟩
        exact Option.bind_eq_some_iff.mpr ⟨_, (addCapture_eq_ok hadd).2.2.1, habove above rfl⟩

/-! ### A name is found again where it was found -/

theorem Marks.dropWhile_name (h : Marks ls ls') (x : String) :
    Marks (ls.dropWhile (·.name ≠ x)) (ls'.dropWhile (·.name ≠ x)) := by
  induction h with
  | nil => exact .nil
  | @cons l l' ls ls' hl hrest ih =>
    rw [dropWhile_cons, dropWhile_cons, hl.name_eq]
    split
    · exact ih
    · exact .cons hl hrest

theorem Marks.slot?_eq {s s' : Scope} (h : Marks s.locals s'.locals) (x : String) : s'.slot? x = s.slot? x := by
  have hdrop := h.dropWhile_name x
  unfold Scope.slot?
  revert hdrop
  generalize s.locals.dropWhile (·.name ≠ x) = ls
  generalize s'.locals.dropWhile (·.name ≠ x) = ls'
  intro hdrop
  cases hdrop with
  | nil => rfl
  | cons hl hrest =>
    dsimp only
    rw [hl.isDefined_eq, hrest.length_eq]

def Scope.names (s : Scope) : List String := s.locals.map Local.name

theorem Scope.getElem?_names {s : Scope} (h : s.localAt? slot = some l) : s.names.reverse[slot]? = some l.name := by
  rw [names, ← map_reverse, List.getElem?_map, show s.locals.reverse[slot]? = _ from h]
  rfl

theorem Marks.names_eq {s s' : Scope} (h : Marks s.locals s'.locals) : s'.names = s.names := by
  unfold Scope.names
  generalize s.locals = ls at h
  generalize s'.locals = ls' at h
  induction h with
  | nil => rfl
  | cons hl _ ih => rw [map_cons, map_cons, hl.name_eq, ih]

/-- The first capture of a function that stands for a variable of the functions around it. -/
def Scope.Keeps (x : String) : Scope → List Scope → Nat → Prop
  | _, [], _ => False
  | s, e :: outer, index =>
    (∃ slot, e.slot? x = .ok (some slot) ∧ s.captures.findIdx? (· = ⟨true, slot⟩) = some index) ∨
    (e.slot? x = .ok none ∧ ∃ above, Scope.Keeps x e outer above ∧
      s.captures.findIdx? (· = ⟨false, above⟩) = some index)

namespace Scope

variable {x : String} {s s' : Scope} {outer outer' : List Scope} {index : Nat}

theorem findIdx?_of_addCapture (h : s.addCapture c = (.ok index, s')) : s'.captures.findIdx? (· = c) = some index := by
  unfold addCapture at h
  split at h
  · rename_i hfound
    cases h
    exact hfound
  · rename_i hnone
    split at h
    · cases h
    · cases h
      show (s.captures.push c).findIdx? (· = c) = _
      rw [Array.findIdx?_push, hnone]
      simp

theorem addCapture_of_findIdx? (h : s.captures.findIdx? (· = c) = some index) : s.addCapture c = (.ok index, s) := by
  rw [addCapture, h]

theorem keeps_of_captureFrom (hx : x ≠ "") (h : s.captureFrom x outer = (.ok (some index), s', outer')) :
    s'.Keeps x outer' index := by
  induction outer generalizing s s' outer' index with
  | nil => cases h
  | cons e outer ih =>
    rcases captureFrom_eq_some h with ⟨slot, hslot, hadd, rfl⟩ | ⟨hslot, above, e', outer1, hinner, hadd, rfl⟩
    · refine .inl ⟨slot, ?_, findIdx?_of_addCapture hadd⟩
      exact ((e.markCaptured_touched slot).locals.slot?_eq x).trans hslot
    · refine .inr ⟨?_, above, ih hinner, findIdx?_of_addCapture hadd⟩
      exact ((captureFrom_eq_ok hx hinner).1.touched.locals.slot?_eq x).trans hslot

end Scope

end Mudscript
