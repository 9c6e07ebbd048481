import Mathlib
import Mudscript.Cell

/-!
# Open cells

The list of open cells and the table of all cells say the same thing twice: a cell is listed with its
slot exactly as long as the table has it open at that slot. `Cells.Consistent` says that they agree.
It follows that a cell is open at one slot only, and that a slot has at most one open cell, since the
list ascends.

The rest of the module says what capturing, closing and writing do to the table and to the list, and what follows
for any sequence of them.
-/

namespace Mudscript.Cells

variable {cells' : Cells} {e : Nat × CellId}

variable {entries : List (Nat × CellId)}

structure Consistent (cells : Cells) : Prop where
  ascending : cells.opened.Pairwise (·.1 < ·.1)
  opened_iff : ∀ slot id, (slot, id) ∈ cells.opened ↔ cells.all[id]? = some (.opened slot)

variable {cells : Cells} {slot slot' height : Nat} {id id' : CellId}

theorem consistent_empty : Consistent {} := ⟨.nil, fun _ _ => ⟨nofun, nofun⟩⟩

theorem Consistent.lt_size (h : cells.Consistent) (hmem : (slot, id) ∈ cells.opened) : id < cells.all.size :=
  (Array.getElem?_eq_some_iff.mp ((h.opened_iff slot id).mp hmem)).1

theorem Consistent.slot_unique (h : cells.Consistent) (hmem : (slot, id) ∈ cells.opened)
    (hmem' : (slot', id) ∈ cells.opened) : slot = slot' := by
  have heq := ((h.opened_iff slot id).mp hmem).symm.trans ((h.opened_iff slot' id).mp hmem')
  injection heq with heq
  injection heq

/-- What becomes of cells in the course of time: new ones are made, but a cell that is open has been open
at the same slot ever since it was made. -/
structure Ages (cells cells' : Cells) : Prop where
  size_le : cells.all.size ≤ cells'.all.size
  opened : ∀ slot id, id < cells.all.size → (slot, id) ∈ cells'.opened → (slot, id) ∈ cells.opened

theorem Ages.refl (cells : Cells) : cells.Ages cells := ⟨Nat.le_refl _, fun _ _ _ h => h⟩

theorem Ages.trans {cells'' : Cells} (h : cells.Ages cells') (h' : cells'.Ages cells'') : cells.Ages cells'' :=
  ⟨Nat.le_trans h.size_le h'.size_le, fun slot id hlt hmem =>
    h.opened slot id hlt (h'.opened slot id (Nat.lt_of_lt_of_le hlt h.size_le) hmem)⟩

/-! ### Capturing -/

theorem mem_insertSlot : e ∈ insertSlot slot id entries ↔ e = (slot, id) ∨ e ∈ entries := by
  induction entries with
  | nil => simp [insertSlot]
  | cons entry rest ih =>
    rw [insertSlot]
    split
    · rw [List.mem_cons, ih, List.mem_cons]
      tauto
    · simp only [List.mem_cons]

private theorem ascending_insertSlot (h : entries.Pairwise (·.1 < ·.1))
    (hnew : ∀ e ∈ entries, e.1 ≠ slot) : (insertSlot slot id entries).Pairwise (·.1 < ·.1) := by
  induction entries with
  | nil => simp [insertSlot]
  | cons entry rest ih =>
    obtain ⟨hfirst, hrest⟩ := List.pairwise_cons.mp h
    have hne := hnew entry List.mem_cons_self
    rw [insertSlot]
    split
    · rename_i hlt
      refine List.pairwise_cons.mpr ⟨fun e he => ?_, ih hrest fun e he => hnew e (List.mem_cons_of_mem _ he)⟩
      rcases mem_insertSlot.mp he with rfl | he
      · exact hlt
      · exact hfirst e he
    · rename_i hge
      have hlt : slot < entry.1 := by omega
      refine List.pairwise_cons.mpr ⟨fun e he => ?_, h⟩
      rcases List.mem_cons.mp he with rfl | he
      · exact hlt
      · exact Nat.lt_trans hlt (hfirst e he)

theorem mem_of_cellOf? (h : cells.cellOf? slot = some id) : (slot, id) ∈ cells.opened := by
  obtain ⟨front, back, heq, _⟩ := List.lookup_eq_some_iff.mp h
  rw [heq]
  exact List.mem_append_right _ List.mem_cons_self

theorem ne_of_cellOf?_eq_none (h : cells.cellOf? slot = none) : ∀ e ∈ cells.opened, e.1 ≠ slot := by
  intro e he heq
  have hne := List.lookup_eq_none_iff.mp h e he
  rw [heq] at hne
  simp at hne

/-- What capturing a slot does: its cell is open, no cell is closed or moved, and a cell that is made
is the last one of the table. -/
structure Captures (cells : Cells) (slot : Nat) (id : CellId) (cells' : Cells) : Prop where
  consistent : cells'.Consistent
  mem : (slot, id) ∈ cells'.opened
  ages : cells.Ages cells'
  kept : ∀ e ∈ cells.opened, e ∈ cells'.opened
  added : ∀ e ∈ cells'.opened, e ∈ cells.opened ∨ e.1 = slot
  closed : ∀ v, .closed v ∈ cells'.all → .closed v ∈ cells.all

theorem Consistent.capture (h : cells.Consistent) (slot : Nat) :
    cells.Captures slot (cells.capture slot).1 (cells.capture slot).2 := by
  unfold Cells.capture
  cases hcell : cells.cellOf? slot with
  | some id =>
    exact ⟨h, mem_of_cellOf? hcell, .refl _, fun _ he => he, fun _ he => .inl he, fun _ hv => hv⟩
  | none =>
    refine ⟨⟨ascending_insertSlot h.ascending (ne_of_cellOf?_eq_none hcell), fun slot' id' => ?_⟩,
      mem_insertSlot.mpr (.inl rfl), ⟨?_, fun slot' id' hlt hmem => ?_⟩,
      fun e he => mem_insertSlot.mpr (.inr he), fun e he => ?_, fun v hv => ?_⟩
    · rw [mem_insertSlot, h.opened_iff, Array.getElem?_push]
      by_cases hid : id' = cells.all.size
      · subst hid
        simp [eq_comm]
      · simp [hid]
    · rw [Array.size_push]
      exact Nat.le_succ _
    · rcases mem_insertSlot.mp hmem with heq | hmem
      · exact absurd hlt (by rw [(Prod.mk.inj heq).2]; exact Nat.lt_irrefl _)
      · exact hmem
    · rcases mem_insertSlot.mp he with rfl | he
      · exact .inr rfl
      · exact .inl he
    · rcases Array.mem_push.mp hv with hv | hv
      · exact hv
      · cases hv

/-! ### Closing -/

private theorem mem_below_above (h : entries.Pairwise (·.1 < ·.1)) :
    (e ∈ entries.takeWhile (·.1 < height) ↔ e ∈ entries ∧ e.1 < height) ∧
      (e ∈ entries.dropWhile (·.1 < height) ↔ e ∈ entries ∧ height ≤ e.1) := by
  induction entries with
  | nil => simp
  | cons entry rest ih =>
    obtain ⟨hfirst, hrest⟩ := List.pairwise_cons.mp h
    obtain ⟨hbelow, habove⟩ := ih hrest
    by_cases hlt : entry.1 < height
    · rw [List.takeWhile_cons_of_pos (by simpa using hlt), List.dropWhile_cons_of_pos (by simpa using hlt)]
      simp only [List.mem_cons, hbelow, habove]
      constructor
      · constructor
        · rintro (rfl | he)
          · exact ⟨.inl rfl, hlt⟩
          · exact ⟨.inr he.1, he.2⟩
        · rintro ⟨rfl | he, hlt'⟩
          · exact .inl rfl
          · exact .inr ⟨he, hlt'⟩
      · constructor
        · exact fun he => ⟨.inr he.1, he.2⟩
        · rintro ⟨rfl | he, hge⟩
          · omega
          · exact ⟨he, hge⟩
    · rw [List.takeWhile_cons_of_neg (by simpa using hlt), List.dropWhile_cons_of_neg (by simpa using hlt)]
      have hall : ∀ e ∈ entry :: rest, height ≤ e.1 := by
        intro e he
        rcases List.mem_cons.mp he with rfl | he
        · omega
        · have := hfirst e he
          omega
      refine ⟨⟨nofun, fun he => ?_⟩, fun he => ⟨he, hall e he⟩, fun he => he.1⟩
      have := hall e he.1
      omega

private theorem getElem?_closed (stack : Array Value) (all : Array Cell)
    (hunique : ∀ e ∈ entries, ∀ e' ∈ entries, e.2 = e'.2 → e = e') :
    let closed := entries.foldl (fun all (e : Nat × CellId) =>
      all.setIfInBounds e.2 (.closed (slotValue stack e.1))) all
    closed.size = all.size ∧ (∀ id, (∀ e ∈ entries, e.2 ≠ id) → closed[id]? = all[id]?) ∧
      ∀ e ∈ entries, e.2 < all.size → closed[e.2]? = some (.closed (slotValue stack e.1)) := by
  induction entries generalizing all with
  | nil => exact ⟨rfl, fun _ _ => rfl, fun _ h => nomatch h⟩
  | cons entry rest ih =>
    obtain ⟨hsize, hkept, hclosed⟩ := ih (all.setIfInBounds entry.2 (.closed (slotValue stack entry.1)))
      fun e he e' he' => hunique e (List.mem_cons_of_mem _ he) e' (List.mem_cons_of_mem _ he')
    rw [Array.size_setIfInBounds] at hsize hclosed
    refine ⟨hsize, fun id hid => ?_, fun e he hlt => ?_⟩
    · refine (hkept id fun e he => hid e (List.mem_cons_of_mem _ he)).trans ?_
      exact Array.getElem?_setIfInBounds_ne (hid entry List.mem_cons_self)
    · rcases List.mem_cons.mp he with rfl | he'
      · by_cases hagain : ∃ e' ∈ rest, e'.2 = e.2
        · obtain ⟨e', he', heq⟩ := hagain
          have := hunique e' (List.mem_cons_of_mem _ he') e List.mem_cons_self heq
          subst this
          exact hclosed e' he' hlt
        · refine (hkept e.2 fun e' he' heq => hagain ⟨e', he', heq⟩).trans ?_
          exact Array.getElem?_setIfInBounds_self_of_lt hlt
      · exact hclosed e he' hlt

/-- What closing the cells at a height or above does: each is closed over the value of its slot, and
nothing else changes. -/
structure Closes (cells : Cells) (height : Nat) (stack : Array Value) (cells' : Cells) : Prop where
  consistent : cells'.Consistent
  size_eq : cells'.all.size = cells.all.size
  mem_iff : ∀ slot id, (slot, id) ∈ cells'.opened ↔ (slot, id) ∈ cells.opened ∧ slot < height
  closed : ∀ slot id, (slot, id) ∈ cells.opened → height ≤ slot →
    cells'.all[id]? = some (.closed (slotValue stack slot))
  kept : ∀ id, (∀ slot, (slot, id) ∈ cells.opened → slot < height) →
    cells'.all[id]? = cells.all[id]?

theorem Closes.ages {stack : Array Value} (h : cells.Closes height stack cells') :
    cells.Ages cells' := ⟨Nat.le_of_eq h.size_eq.symm, fun slot id _ hmem => ((h.mem_iff slot id).mp hmem).1⟩

theorem Consistent.closeFrom (h : cells.Consistent) (height : Nat) (stack : Array Value) :
    cells.Closes height stack (cells.closeFrom height stack) := by
  have habove : ∀ e, e ∈ cells.opened.dropWhile (·.1 < height) ↔ e ∈ cells.opened ∧ height ≤ e.1 :=
    fun e => (mem_below_above h.ascending).2
  have hunique : ∀ e ∈ cells.opened.dropWhile (·.1 < height),
      ∀ e' ∈ cells.opened.dropWhile (·.1 < height), e.2 = e'.2 → e = e' := by
    rintro ⟨slot, id⟩ he ⟨slot', id'⟩ he' (rfl : id = id')
    rw [h.slot_unique ((habove _).mp he).1 ((habove _).mp he').1]
  obtain ⟨hsize, hkept, hclosed⟩ := getElem?_closed stack cells.all hunique
  have hkept' : ∀ id, (∀ slot, (slot, id) ∈ cells.opened → slot < height) →
      (cells.closeFrom height stack).all[id]? = cells.all[id]? := by
    refine fun id hid => hkept id ?_
    rintro ⟨slot, id'⟩ he (rfl : id' = id)
    obtain ⟨hmem, hge⟩ := (habove _).mp he
    have := hid slot hmem
    omega
  have hclosed' : ∀ slot id, (slot, id) ∈ cells.opened → height ≤ slot →
      (cells.closeFrom height stack).all[id]? = some (.closed (slotValue stack slot)) :=
    fun slot id hmem hge => hclosed (slot, id) ((habove _).mpr ⟨hmem, hge⟩) (h.lt_size hmem)
  have hmem : ∀ slot id, (slot, id) ∈ (cells.closeFrom height stack).opened ↔
      (slot, id) ∈ cells.opened ∧ slot < height := fun slot id => (mem_below_above h.ascending).1
  refine ⟨⟨h.ascending.sublist (List.takeWhile_sublist _), fun slot id => ?_⟩, hsize, hmem, hclosed', hkept'⟩
  rw [hmem]
  constructor
  · rintro ⟨hopened, hlt⟩
    rw [hkept' id fun slot' hslot' => h.slot_unique hopened hslot' ▸ hlt]
    exact (h.opened_iff slot id).mp hopened
  · intro hopened
    by_cases hex : ∃ slot', (slot', id) ∈ cells.opened ∧ height ≤ slot'
    · obtain ⟨slot', hmem', hge⟩ := hex
      rw [hclosed' slot' id hmem' hge] at hopened
      cases hopened
    · have hall : ∀ slot', (slot', id) ∈ cells.opened → slot' < height :=
        fun slot' hmem' => Nat.lt_of_not_le fun hge => hex ⟨slot', hmem', hge⟩
      rw [hkept' id hall, ← h.opened_iff] at hopened
      exact ⟨hopened, hall slot hopened⟩

/-! ### Writing -/

theorem Consistent.setClosed {v w : Value} (h : cells.Consistent) (hid : cells.all[id]? = some (.closed w)) :
    Consistent { cells with all := cells.all.setIfInBounds id (.closed v) } := by
  refine ⟨h.ascending, fun slot id' => ?_⟩
  rw [h.opened_iff]
  by_cases heq : id = id'
  · subst heq
    have hlt := (Array.getElem?_eq_some_iff.mp hid).1
    rw [hid, Array.getElem?_setIfInBounds_self_of_lt hlt]
    exact ⟨nofun, nofun⟩
  · rw [Array.getElem?_setIfInBounds_ne heq]

/-! ### Any sequence of operations -/

inductive Operation
  | capture (slot : Nat)
  | closeFrom (height : Nat) (stack : Array Value)
  | write (id : CellId) (value : Value) (stack : Array Value)

/-- Cells, and what captures have given, the latest first. -/
structure History where
  cells : Cells := {}
  captured : List CellId := []

def History.step (h : History) : Operation → History
  | .capture slot => ⟨(h.cells.capture slot).2, (h.cells.capture slot).1 :: h.captured⟩
  | .closeFrom height stack => { h with cells := h.cells.closeFrom height stack }
  | .write id value stack => { h with cells := (h.cells.write id value stack).1 }

def History.run (ops : List Operation) : History := ops.foldl step {}

/-- The list of open cells is right, and every cell has been captured. -/
structure History.Tracks (h : History) : Prop where
  consistent : h.cells.Consistent
  captured_iff : ∀ id, id ∈ h.captured ↔ id < h.cells.all.size

theorem Consistent.capture_eq (h : cells.Consistent) (hmem : (slot, id) ∈ cells.opened) :
    cells.capture slot = (id, cells) := by
  unfold Cells.capture
  cases hcell : cells.cellOf? slot with
  | none => exact absurd rfl (ne_of_cellOf?_eq_none hcell _ hmem)
  | some id' =>
    have hnodup : (cells.opened.map Prod.fst).Nodup :=
      (List.pairwise_map.mpr h.ascending).imp fun hlt => Nat.ne_of_lt hlt
    cases List.inj_on_of_nodup_map hnodup (mem_of_cellOf? hcell) hmem rfl
    rfl

/-- One cell is made. It is listed where it belongs, and no other cell is touched. -/
structure Gains (cells : Cells) (slot : Nat) (id : CellId) (cells' : Cells) : Prop where
  id_eq : id = cells.all.size
  all_eq : cells'.all = cells.all.push (.opened slot)
  mem_iff : ∀ e, e ∈ cells'.opened ↔ e = (slot, id) ∨ e ∈ cells.opened

theorem capture_gains (cells : Cells) (hnone : ∀ id, (slot, id) ∉ cells.opened) :
    cells.Gains slot (cells.capture slot).1 (cells.capture slot).2 := by
  unfold Cells.capture
  cases hcell : cells.cellOf? slot with
  | some id => exact absurd (mem_of_cellOf? hcell) (hnone id)
  | none => exact ⟨rfl, rfl, fun _ => mem_insertSlot⟩

namespace History.Tracks

variable {h : History}

theorem capture (ht : h.Tracks) (slot : Nat) : (h.step (.capture slot)).Tracks := by
  refine ⟨(ht.consistent.capture slot).consistent, fun id => ?_⟩
  rw [step, List.mem_cons, ht.captured_iff]
  by_cases hmem : ∃ id', (slot, id') ∈ h.cells.opened
  · obtain ⟨id', hmem⟩ := hmem
    have hlt := ht.consistent.lt_size hmem
    rw [ht.consistent.capture_eq hmem]
    exact or_iff_right_of_imp fun heq => heq ▸ hlt
  · have hmakes := capture_gains h.cells fun id' hmem' => hmem ⟨id', hmem'⟩
    rw [hmakes.id_eq, hmakes.all_eq, Array.size_push, Nat.lt_succ_iff_lt_or_eq, or_comm]

theorem write (ht : h.Tracks) (id : CellId) (value : Value) (stack : Array Value) :
    (h.step (.write id value stack)).Tracks := by
  rw [step, Cells.write]
  split
  · exact ht
  · rename_i hid
    refine ⟨ht.consistent.setClosed hid, fun id' => ?_⟩
    rw [ht.captured_iff, Array.size_setIfInBounds]
  · exact ht

theorem step (ht : h.Tracks) (op : Operation) : (h.step op).Tracks := by
  cases op with
  | capture slot => exact ht.capture slot
  | closeFrom height stack =>
    have hcloses := ht.consistent.closeFrom height stack
    exact ⟨hcloses.consistent, fun id => (ht.captured_iff id).trans (by rw [← hcloses.size_eq]; rfl)⟩
  | write id value stack => exact ht.write id value stack

theorem foldl (ht : h.Tracks) (ops : List Operation) : (ops.foldl History.step h).Tracks := by
  induction ops generalizing h with
  | nil => exact ht
  | cons op ops ih => exact ih (ht.step op)

end History.Tracks

/-- After any operations, the list ascends and has exactly the cells that were captured and are open. A slot that is
listed is captured by its cell, and any other one by a new cell. What is closed is the cells from a height on. -/
theorem History.tracks_open_cells (ops : List Operation) : let cells := (run ops).cells
    cells.opened.Pairwise (·.1 < ·.1) ∧
      (∀ slot id, (slot, id) ∈ cells.opened ↔ id ∈ (run ops).captured ∧ cells.all[id]? = some (.opened slot)) ∧
      (∀ slot id, (slot, id) ∈ cells.opened → cells.capture slot = (id, cells)) ∧
      (∀ slot, (∀ id, (slot, id) ∉ cells.opened) →
        cells.Gains slot (cells.capture slot).1 (cells.capture slot).2) ∧
      ∀ height stack, cells.Closes height stack (cells.closeFrom height stack) := by
  have hstart : Tracks {} := ⟨consistent_empty, by simp⟩
  have ht : (run ops).Tracks := hstart.foldl ops
  refine ⟨ht.consistent.ascending, fun slot id => ?_, fun slot id => ht.consistent.capture_eq,
    fun slot => capture_gains _, ht.consistent.closeFrom⟩
  rw [ht.captured_iff, ht.consistent.opened_iff]
  exact ⟨fun hid => ⟨(Array.getElem?_eq_some_iff.mp hid).1, hid⟩, And.right⟩

end Mudscript.Cells
