import Mudscript.Proofs.Scoping

/-!
# Nested blocks

The locals of a function are kept in one list, with their depths. Where each declaration is followed by its
definition and each block ends after it began, that list is the variables of the open blocks one after the
other, and perhaps one more in front that is not defined yet.
-/

namespace Mudscript

open List

theorem Scope.emitAll_eq (s : Scope) (is : List Instruction) (line : Nat) :
    s.emitAll is line = { s with draft := (s.emitAll is line).draft } := by
  induction is generalizing s with
  | nil => rfl
  | cons i is ih => exact ih (s.emit i line)

theorem Scope.declare_eq_ok {s s' : Scope} {x : String} (h : s.declare x = .ok s') :
    s' = { s with locals := ⟨x, Local.undefinedDepth, false⟩ :: s.locals } := by
  unfold Scope.declare at h
  split at h
  · cases h
  · split at h
    · cases h
    · cases h
      rfl

theorem Scope.define_eq (s : Scope) : s.define = { s with locals := s.define.locals } := by
  unfold Scope.define
  split
  · rfl
  · split <;> rfl

/-- Names and depths of the locals of nested blocks, the innermost block and the newest variable first. -/
def layers : List (List String) → List (String × Int)
  | [] => []
  | b :: bs => b.map (·, (bs.length : Int)) ++ layers bs

/-- The locals of a function are those of its blocks. The newest one may be pending. -/
structure Scope.Nests (s : Scope) (blocks : List (List String)) (pending : Option String) : Prop where
  depth : s.depth + 1 = blocks.length
  locals : s.locals.map (fun l => (l.name, l.depth))
    = pending.toList.map (·, Local.undefinedDepth) ++ layers blocks

theorem layers_depth {bs : List (List String)} {l : String × Int} (h : l ∈ layers bs) : 0 ≤ l.2 ∧ l.2 < bs.length := by
  induction bs with
  | nil => cases h
  | cons b bs ih =>
    rw [length_cons]
    rcases mem_append.mp h with hb | hbs
    · obtain ⟨x, _, rfl⟩ := mem_map.mp hb
      dsimp only
      omega
    · have := ih hbs
      omega

theorem layers_defined (bs : List (List String)) :
    (layers bs).map (fun l => (l.1, decide (l.2 ≠ Local.undefinedDepth))) = bs.flatten.map (·, true) := by
  induction bs with
  | nil => rfl
  | cons b bs ih =>
    rw [layers, map_append, ih, flatten_cons, map_append, map_map]
    rfl

namespace Scope.Nests

variable {s s' : Scope} {b : List String} {bs : List (List String)} {pending : Option String} {x : String}

theorem defined (h : s.Nests bs pending) : s.locals.map (fun l => (l.name, l.isDefined))
    = pending.toList.map (·, false) ++ bs.flatten.map (·, true) := by
  have hmap : s.locals.map (fun l => (l.name, l.isDefined))
      = (s.locals.map fun l => (l.name, l.depth)).map
        fun l => (l.1, decide (l.2 ≠ Local.undefinedDepth)) := by
    rw [map_map]
    rfl
  rw [hmap, h.locals, map_append, layers_defined]
  cases pending <;> simp [Local.undefinedDepth]

theorem touched (h : s.Nests bs pending) (ht : s.Touched s') : s'.Nests bs pending := by
  refine ⟨by rw [ht.rest]; exact h.depth, Eq.trans ?_ h.locals⟩
  have hmarks := ht.locals
  generalize s.locals = ls, s'.locals = ls' at hmarks
  induction hmarks with
  | nil => rfl
  | cons hl _ ih => rw [map_cons, map_cons, ih, hl.name_eq, hl.depth_eq]

theorem beginBlock (h : s.Nests bs none) : s.beginBlock.Nests ([] :: bs) none := by
  refine ⟨?_, h.locals⟩
  show s.depth + 1 + 1 = _
  rw [h.depth]
  rfl

theorem split (h : s.Nests (b :: bs) none) :
    ∃ new old, s.locals = new ++ old ∧ new.map Local.name = b ∧ (∀ l ∈ new, l.depth = s.depth) ∧
      old.map (fun l => (l.name, l.depth)) = layers bs ∧ ∀ l ∈ old, 0 ≤ l.depth ∧ l.depth < s.depth := by
  have hdepth : s.depth = bs.length := by
    have := h.depth
    rw [length_cons] at this
    omega
  have hsplit : s.locals.map (fun l => (l.name, l.depth)) = b.map (·, (bs.length : Int)) ++ layers bs := h.locals
  obtain ⟨new, old, hlocals, hnew, hold⟩ := map_eq_append_iff.mp hsplit
  refine ⟨new, old, hlocals, ?_, fun l hl => ?_, hold, fun l hl => ?_⟩
  · have hnames := congrArg (List.map Prod.fst) hnew
    simpa [map_map, Function.comp_def] using hnames
  · have hmem : (l.name, l.depth) ∈ b.map (·, (bs.length : Int)) := hnew ▸ mem_map_of_mem hl
    obtain ⟨x, _, hx⟩ := mem_map.mp hmem
    rw [hdepth]
    exact (congrArg Prod.snd hx).symm
  · have hmem : (l.name, l.depth) ∈ layers bs := hold ▸ mem_map_of_mem hl
    rw [hdepth]
    exact layers_depth hmem

theorem ofBlock (h : s.Nests (b :: bs) none) : s.ofBlock.map Local.name = b := by
  obtain ⟨new, old, hlocals, hnames, hnew, _, hold⟩ := h.split
  have hends : old.takeWhile (fun l => !l.isDefined || decide (s.depth ≤ l.depth)) = [] := by
    cases old with
    | nil => rfl
    | cons l old =>
      have hl := hold l mem_cons_self
      have hdefined : l.isDefined = true := decide_eq_true fun h => absurd (h ▸ hl.1) (by decide)
      refine takeWhile_cons_of_neg ?_
      rw [hdefined, decide_eq_false (by omega)]
      exact nofun
  rw [Scope.ofBlock, hlocals, takeWhile_append_of_pos, hends, append_nil, hnames]
  intro l hl
  simp [hnew l hl]

theorem any_eq (h : s.Nests (b :: bs) none) (x : String) : s.ofBlock.any (·.name = x) = decide (x ∈ b) := by
  rw [← h.ofBlock, Bool.eq_iff_iff]
  simp

theorem define (h : s.Nests (b :: bs) (some x)) (hbs : bs ≠ []) : s.define.Nests ((x :: b) :: bs) none := by
  have hdepth := h.depth
  rw [length_cons] at hdepth
  have hpos := length_pos_iff.mpr hbs
  obtain ⟨l, old, hcons, hl, hold⟩ := map_eq_cons_iff.mp h.locals
  have hdefine : s.define = { s with locals := { l with depth := s.depth } :: old } := by
    rw [Scope.define, if_neg (by omega), hcons]
  rw [hdefine]
  refine ⟨h.depth, ?_⟩
  show (l.name, s.depth) :: old.map _ = _
  rw [hold, (Prod.mk.inj hl).1, show s.depth = bs.length by omega]
  rfl

theorem define_eq (h : s.Nests ((x :: b) :: bs) none) : s.define = s := by
  obtain ⟨new, old, hlocals, hnames, hnew, _, _⟩ := h.split
  obtain ⟨l, new, rfl, _, _⟩ := map_eq_cons_iff.mp hnames
  have hl : { l with depth := s.depth } = l := by rw [← hnew l mem_cons_self]
  rw [Scope.define]
  split
  · rfl
  · rw [hlocals, cons_append]
    dsimp only
    rw [hl, ← cons_append, ← hlocals]

theorem endBlock (h : s.Nests (b :: bs) none) (hdepth : s'.depth = s.depth - 1)
    (hlocals' : s'.locals = s.locals.dropWhile (s.depth - 1 < ·.depth)) : s'.Nests bs none := by
  obtain ⟨new, old, hlocals, _, hnew, hrest, hold⟩ := h.split
  have hdrop : s.locals.dropWhile (fun l => decide (s.depth - 1 < l.depth)) = old := by
    rw [hlocals, dropWhile_append_of_pos]
    · cases old with
      | nil => rfl
      | cons l old =>
        have hl := hold l mem_cons_self
        exact dropWhile_cons_of_neg (by simp; omega)
    · intro l hl
      rw [hnew l hl]
      exact decide_eq_true (by omega)
  refine ⟨?_, ?_⟩
  · rw [hdepth]
    have := h.depth
    rw [length_cons] at this
    omega
  · rw [hlocals', hdrop]
    exact hrest

end Scope.Nests

end Mudscript
