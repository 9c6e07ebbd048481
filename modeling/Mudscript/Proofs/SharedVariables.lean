import Mudscript.Proofs.OpenCells

/-!
# Cells are shared variables

Closures that capture a variable share it, and it outlives its slot. The plain account of this has no
cells: every value that is pushed is a variable of its own, a slot holds a variable, and capturing a
slot gives a reference to the variable in it. `Variables` is that account, with the writes to all
variables as one history, so that the value of a variable is what was written to it last.

`CellStack` is a stack with its cells and the references that were handed out. The relation between the
two assigns a variable to every cell: the one in its slot as long as the cell is open, and afterwards one
that no slot holds. Different cells have different variables, and this is what keeps a variable apart
from a later one in the same slot.
-/

namespace Mudscript

open List

/-- What is done with the variables on a stack. References are numbered in the order in which they were
taken. -/
inductive VariableOp
  | push (v : Value)
  | assign (slot : Nat) (v : Value)
  | capture (slot : Nat)
  | read (reference : Nat)
  | write (reference : Nat) (v : Value)
  /-- Cuts the stack down to a height, when the cells from there on are closed. -/
  | truncate (height : Nat)

/-- A stack and its cells, the references taken so far and what was read through them. -/
structure CellStack where
  stack : Array Value := #[]
  cells : Cells := {}
  references : Array CellId := #[]
  reads : List Value := []

namespace CellStack

def cellOf (s : CellStack) (reference : Nat) : CellId := s.references[reference]?.getD 0

def step (s : CellStack) : VariableOp → CellStack
  | .push v => { s with stack := s.stack.push v }
  | .assign slot v => { s with stack := s.stack.setIfInBounds slot v }
  | .capture slot =>
    let (id, cells) := s.cells.capture slot
    { s with cells, references := s.references.push id }
  | .read reference => { s with reads := s.cells.read (s.cellOf reference) s.stack :: s.reads }
  | .write reference v =>
    let (cells, stack) := s.cells.write (s.cellOf reference) v s.stack
    { s with cells, stack }
  | .truncate height =>
    { s with cells := s.cells.closeFrom height s.stack, stack := s.stack.shrink height }

def run (ops : List VariableOp) : CellStack := ops.foldl step {}

end CellStack

structure Variables where
  /-- How many variables there have been. -/
  count : Nat := 0
  /-- The variable in each slot, the lowest slot first. -/
  slots : List Nat := []
  /-- All writes, the latest first. The value a variable is pushed with counts as written. -/
  writes : List (Nat × Value) := []
  references : Array Nat := #[]
  reads : List Value := []

namespace Variables

def value? (m : Variables) (x : Nat) : Option Value := m.writes.lookup x

/-- An operation on variables. Only a slot of the stack can be assigned to and captured, only a
reference that was taken can be used, and the stack is not cut to more than its height. -/
def step? (m : Variables) : VariableOp → Option Variables
  | .push v =>
    some { m with
      count := m.count + 1
      slots := m.slots ++ [m.count]
      writes := (m.count, v) :: m.writes }
  | .assign slot v => m.slots[slot]?.map fun x => { m with writes := (x, v) :: m.writes }
  | .capture slot => m.slots[slot]?.map fun x => { m with references := m.references.push x }
  | .read reference =>
    m.references[reference]?.map fun x => { m with reads := (m.value? x).getD .nil :: m.reads }
  | .write reference v =>
    m.references[reference]?.map fun x => { m with writes := (x, v) :: m.writes }
  | .truncate height =>
    if height ≤ m.slots.length then some { m with slots := m.slots.take height } else none

def run? (ops : List VariableOp) : Option Variables := ops.foldlM step? {}

end Variables

/-- The variable of a cell: it is in the slot of an open cell, and in no slot once the cell is closed
over its value. -/
def Cell.Represents (m : Variables) (x : Nat) : Cell → Prop
  | .opened slot => m.slots[slot]? = some x
  | .closed v => x ∉ m.slots ∧ m.value? x = some v

/-- Cells that stand for variables, by the given assignment. -/
structure CellStack.Stands (s : CellStack) (m : Variables) (variableOf : CellId → Nat) : Prop where
  consistent : s.cells.Consistent
  height_eq : s.stack.size = m.slots.length
  nodup : m.slots.Nodup
  slot_lt : ∀ x ∈ m.slots, x < m.count
  slot_value : ∀ (slot : Nat) x, m.slots[slot]? = some x → m.value? x = s.stack[slot]?
  cell_lt : ∀ id < s.cells.all.size, variableOf id < m.count
  holds : ∀ (id : Nat) cell, s.cells.all[id]? = some cell → cell.Represents m (variableOf id)
  injective : ∀ id < s.cells.all.size, ∀ id' < s.cells.all.size, variableOf id = variableOf id' → id = id'
  reference_lt : ∀ id ∈ s.references, id < s.cells.all.size
  references_eq : m.references = s.references.map variableOf
  reads_eq : m.reads = s.reads

namespace CellStack

variable {s : CellStack} {m m' : Variables} {variableOf : CellId → Nat}

theorem stands_empty : Stands {} {} id where
  consistent := Cells.consistent_empty
  height_eq := rfl
  nodup := .nil
  slot_lt := nofun
  slot_value _ _ h := nomatch h
  cell_lt _ h := nomatch h
  holds _ _ h := nomatch h
  injective _ h := nomatch h
  reference_lt _ h := absurd h (Array.not_mem_empty _)
  references_eq := Array.map_empty.symm
  reads_eq := rfl

/-! ### One operation -/

theorem value?_write (m : Variables) (x y : Nat) (v : Value) :
    ({ m with writes := (x, v) :: m.writes } : Variables).value? y
      = if y = x then some v else m.value? y := by
  by_cases h : y = x
  · simp [Variables.value?, h]
  · simp [Variables.value?, lookup_cons, beq_false_of_ne h, h]

section

variable (h : s.Stands m variableOf)

include h

theorem Stands.slot_inj {slot slot' x : Nat}
    (hslot : m.slots[slot]? = some x) (hslot' : m.slots[slot']? = some x) : slot = slot' := by
  obtain ⟨hlt, hx⟩ := List.getElem?_eq_some_iff.mp hslot
  obtain ⟨hlt', hx'⟩ := List.getElem?_eq_some_iff.mp hslot'
  exact (List.Nodup.getElem_inj_iff h.nodup).mp (hx.trans hx'.symm)

theorem Stands.push (v : Value) (hstep : m.step? (.push v) = some m') : (s.step (.push v)).Stands m' variableOf := by
  cases hstep
  have hfresh : m.count ∉ m.slots := fun hmem => Nat.lt_irrefl _ (h.slot_lt _ hmem)
  refine ⟨h.consistent, ?_, ?_, ?_, ?_, ?_, ?_, h.injective, h.reference_lt, h.references_eq, h.reads_eq⟩
  · simp [step, h.height_eq]
  · exact List.Nodup.append h.nodup (nodup_singleton _) (disjoint_singleton.mpr hfresh)
  · intro x hx
    rcases mem_append.mp hx with hx | hx
    · exact Nat.lt_succ_of_lt (h.slot_lt x hx)
    · rw [mem_singleton.mp hx]
      exact Nat.lt_succ_self _
  · intro slot x hslot
    rw [value?_write { m with count := m.count + 1, slots := m.slots ++ [m.count] }]
    rcases Nat.lt_trichotomy slot m.slots.length with hlt | rfl | hgt
    · rw [List.getElem?_append_left hlt] at hslot
      have hne : x ≠ m.count := Nat.ne_of_lt (h.slot_lt x (mem_of_getElem? hslot))
      rw [if_neg hne]
      show m.value? x = (s.stack.push v)[slot]?
      rw [h.slot_value slot x hslot, Array.getElem?_push_lt (h.height_eq ▸ hlt),
        Array.getElem?_eq_getElem (h.height_eq ▸ hlt)]
    · rw [List.getElem?_concat_length] at hslot
      cases hslot
      show _ = (s.stack.push v)[m.slots.length]?
      rw [if_pos rfl, ← h.height_eq, Array.getElem?_push_size]
    · rw [List.getElem?_eq_none (by rw [length_append, length_singleton]; omega)] at hslot
      cases hslot
  · exact fun id hlt => Nat.lt_succ_of_lt (h.cell_lt id hlt)
  · intro id cell hcell
    have hlt := h.cell_lt id (Array.getElem?_eq_some_iff.mp hcell).1
    have hholds := h.holds id cell hcell
    cases cell with
    | opened slot =>
      exact (List.getElem?_append_left (List.getElem?_eq_some_iff.mp hholds).1).trans hholds
    | closed w =>
      refine ⟨fun hmem => ?_, ?_⟩
      · rcases mem_append.mp hmem with hmem | hmem
        · exact hholds.1 hmem
        · exact Nat.ne_of_lt hlt (mem_singleton.mp hmem)
      · rw [value?_write { m with count := m.count + 1, slots := m.slots ++ [m.count] },
          if_neg (Nat.ne_of_lt hlt)]
        exact hholds.2

theorem Stands.setSlot {slot x : Nat} (hslot : m.slots[slot]? = some x) (v : Value) :
    ({ s with stack := s.stack.setIfInBounds slot v } : CellStack).Stands
      { m with writes := (x, v) :: m.writes } variableOf := by
  refine ⟨h.consistent, ?_, h.nodup, h.slot_lt, ?_, h.cell_lt, ?_, h.injective, h.reference_lt,
    h.references_eq, h.reads_eq⟩
  · rw [Array.size_setIfInBounds, h.height_eq]
  · intro slot' y hslot'
    rw [value?_write]
    have hlt : slot < s.stack.size := by
      rw [h.height_eq]
      exact (List.getElem?_eq_some_iff.mp hslot).1
    by_cases heq : slot' = slot
    · subst heq
      rw [hslot] at hslot'
      cases hslot'
      rw [if_pos rfl, Array.getElem?_setIfInBounds_self_of_lt hlt]
    · rw [Array.getElem?_setIfInBounds_ne (Ne.symm heq), if_neg]
      · exact h.slot_value slot' y hslot'
      · rintro rfl
        exact heq (h.slot_inj hslot' hslot)
  · intro id cell hcell
    have hholds := h.holds id cell hcell
    cases cell with
    | opened slot' => exact hholds
    | closed w =>
      refine ⟨hholds.1, ?_⟩
      rw [value?_write, if_neg]
      · exact hholds.2
      · intro heq
        exact hholds.1 (heq ▸ mem_of_getElem? hslot)

theorem Stands.setClosed {id : CellId} {w : Value} (hcell : s.cells.all[id]? = some (.closed w)) (v : Value) :
    ({ s with cells.all := s.cells.all.setIfInBounds id (.closed v) } : CellStack).Stands
      { m with writes := (variableOf id, v) :: m.writes } variableOf := by
  have hlt := (Array.getElem?_eq_some_iff.mp hcell).1
  have hdead : variableOf id ∉ m.slots := (h.holds id _ hcell).1
  refine ⟨h.consistent.setClosed hcell, h.height_eq, h.nodup, h.slot_lt, ?_, ?_, ?_, ?_, ?_,
    h.references_eq, h.reads_eq⟩
  · intro slot y hslot
    rw [value?_write, if_neg]
    · exact h.slot_value slot y hslot
    · rintro rfl
      exact hdead (mem_of_getElem? hslot)
  · simpa using h.cell_lt
  · intro id' cell hcell'
    by_cases heq : id' = id
    · subst heq
      rw [Array.getElem?_setIfInBounds_self_of_lt hlt] at hcell'
      cases hcell'
      exact ⟨hdead, by rw [value?_write, if_pos rfl]⟩
    · rw [Array.getElem?_setIfInBounds_ne (Ne.symm heq)] at hcell'
      have hlt' := (Array.getElem?_eq_some_iff.mp hcell').1
      have hholds := h.holds id' cell hcell'
      cases cell with
      | opened slot => exact hholds
      | closed u =>
        refine ⟨hholds.1, ?_⟩
        rw [value?_write, if_neg fun hsame => heq (h.injective id' hlt' id hlt hsame)]
        exact hholds.2
  · simpa using h.injective
  · simpa using h.reference_lt

theorem Stands.cellOf {reference x : Nat} (href : m.references[reference]? = some x) :
    s.cellOf reference < s.cells.all.size ∧ variableOf (s.cellOf reference) = x := by
  rw [h.references_eq, Array.getElem?_map] at href
  obtain ⟨id, hid, rfl⟩ := Option.map_eq_some_iff.mp href
  rw [CellStack.cellOf, hid]
  exact ⟨h.reference_lt id (Array.mem_of_getElem? hid), rfl⟩

theorem Stands.read {id : CellId} (hlt : id < s.cells.all.size) :
    m.value? (variableOf id) = some (s.cells.read id s.stack) := by
  have hcell := Array.getElem?_eq_getElem hlt
  have hholds := h.holds id _ hcell
  rw [Cells.read, hcell]
  cases hkind : s.cells.all[id] with
  | opened slot =>
    rw [hkind] at hholds
    have hslot : slot < s.stack.size := by
      rw [h.height_eq]
      exact (List.getElem?_eq_some_iff.mp hholds).1
    rw [h.slot_value slot _ hholds]
    simp [Cells.slotValue, hslot]
  | closed v =>
    rw [hkind] at hholds
    exact hholds.2

theorem Stands.write {reference : Nat} {v : Value} (hstep : m.step? (.write reference v) = some m') :
    (s.step (.write reference v)).Stands m' variableOf := by
  obtain ⟨x, href, rfl⟩ := Option.map_eq_some_iff.mp hstep
  obtain ⟨hlt, rfl⟩ := h.cellOf href
  have hcell := Array.getElem?_eq_getElem hlt
  have hholds := h.holds _ _ hcell
  rw [step, Cells.write, hcell]
  cases hkind : s.cells.all[s.cellOf reference] with
  | opened slot =>
    rw [hkind] at hholds
    exact h.setSlot hholds v
  | closed w => exact h.setClosed (hcell.trans (congrArg some hkind)) v

theorem Stands.newCell {slot x : Nat} (hslot : m.slots[slot]? = some x) (hnone : s.cells.cellOf? slot = none) :
    (s.step (.capture slot)).Stands { m with references := m.references.push x }
      (Function.update variableOf s.cells.all.size x) := by
  have hcapture := h.consistent.capture slot
  have hnew : s.cells.capture slot = (s.cells.all.size, {
      all := s.cells.all.push (.opened slot)
      opened := Cells.insertSlot slot s.cells.all.size s.cells.opened }) := by
    rw [Cells.capture, hnone]
  rw [hnew] at hcapture
  have hold : ∀ {id}, id < s.cells.all.size → Function.update variableOf s.cells.all.size x id
      = variableOf id := fun hlt => Function.update_of_ne (Nat.ne_of_lt hlt) ..
  -- No cell stands for the variable yet: an open one would be open at this slot.
  have hfresh : ∀ id < s.cells.all.size, variableOf id ≠ x := by
    rintro id hlt rfl
    have hcell := Array.getElem?_eq_getElem hlt
    have hholds := h.holds id _ hcell
    cases hkind : s.cells.all[id] with
    | opened slot' =>
      rw [hkind] at hcell hholds
      have hmem := (h.consistent.opened_iff slot' id).mpr hcell
      exact Cells.ne_of_cellOf?_eq_none hnone _ hmem (h.slot_inj hholds hslot)
    | closed v =>
      rw [hkind] at hholds
      exact hholds.1 (mem_of_getElem? hslot)
  rw [step, hnew]
  refine ⟨hcapture.consistent, h.height_eq, h.nodup, h.slot_lt, h.slot_value, ?_, ?_, ?_, ?_, ?_,
    h.reads_eq⟩
  · intro id hlt
    rw [Array.size_push] at hlt
    rcases Nat.lt_succ_iff_lt_or_eq.mp hlt with hlt | rfl
    · rw [hold hlt]
      exact h.cell_lt id hlt
    · rw [Function.update_self]
      exact h.slot_lt x (mem_of_getElem? hslot)
  · intro id cell hcell
    rw [Array.getElem?_push] at hcell
    split at hcell
    · rename_i heq
      subst heq
      cases hcell
      rw [Function.update_self]
      exact hslot
    · rw [hold (Array.getElem?_eq_some_iff.mp hcell).1]
      exact h.holds id cell hcell
  · intro id hlt id' hlt' heq
    rw [Array.size_push] at hlt hlt'
    rcases Nat.lt_succ_iff_lt_or_eq.mp hlt with hlt | rfl <;>
      rcases Nat.lt_succ_iff_lt_or_eq.mp hlt' with hlt' | rfl
    · rw [hold hlt, hold hlt'] at heq
      exact h.injective id hlt id' hlt' heq
    · rw [hold hlt, Function.update_self] at heq
      exact absurd heq (hfresh id hlt)
    · rw [hold hlt', Function.update_self] at heq
      exact absurd heq.symm (hfresh id' hlt')
    · rfl
  · intro id hid
    rw [Array.size_push]
    rcases Array.mem_push.mp hid with hid | rfl
    · exact Nat.lt_succ_of_lt (h.reference_lt id hid)
    · exact Nat.lt_succ_self _
  · rw [Array.map_push, Function.update_self, h.references_eq]
    refine congrArg (·.push x) (Array.map_congr_left fun id hid => ?_)
    exact (hold (h.reference_lt id hid)).symm

theorem Stands.capture {slot : Nat} (hstep : m.step? (.capture slot) = some m') :
    ∃ variableOf', (s.step (.capture slot)).Stands m' variableOf' := by
  obtain ⟨x, hslot, rfl⟩ := Option.map_eq_some_iff.mp hstep
  cases hcell : s.cells.cellOf? slot with
  | none => exact ⟨_, h.newCell hslot hcell⟩
  | some id =>
    have hopen := (h.consistent.opened_iff slot id).mp (Cells.mem_of_cellOf? hcell)
    have hx : variableOf id = x := Option.some.inj ((h.holds id _ hopen).symm.trans hslot)
    refine ⟨variableOf, ?_⟩
    rw [step, Cells.capture, hcell]
    refine ⟨h.consistent, h.height_eq, h.nodup, h.slot_lt, h.slot_value, h.cell_lt, h.holds, h.injective,
      ?_, ?_, h.reads_eq⟩
    · intro id' hid'
      rcases Array.mem_push.mp hid' with hid' | rfl
      · exact h.reference_lt id' hid'
      · exact (Array.getElem?_eq_some_iff.mp hopen).1
    · rw [Array.map_push, hx, h.references_eq]

theorem Stands.truncate {height : Nat} (hstep : m.step? (.truncate height) = some m') :
    (s.step (.truncate height)).Stands m' variableOf := by
  rw [Variables.step?] at hstep
  split at hstep
  · rename_i hle
    cases hstep
    have hcloses := h.consistent.closeFrom height s.stack
    refine ⟨hcloses.consistent, ?_, h.nodup.sublist (take_sublist _ _), ?_, ?_, ?_, ?_, ?_, ?_,
      h.references_eq, h.reads_eq⟩
    · simp [step, h.height_eq, hle]
    · exact fun x hx => h.slot_lt x (mem_of_mem_take hx)
    · intro slot x hslot
      rw [List.getElem?_take] at hslot
      split at hslot
      · rename_i hlt
        show m.value? x = (s.stack.shrink height)[slot]?
        rw [h.slot_value slot x hslot, Array.shrink_eq_take, Array.getElem?_extract,
          if_pos (by rw [h.height_eq]; omega), Nat.zero_add]
      · cases hslot
    · rw [step, hcloses.size_eq]
      exact h.cell_lt
    · intro id cell hcell
      by_cases hopen : ∃ slot, (slot, id) ∈ s.cells.opened ∧ height ≤ slot
      · obtain ⟨slot, hmem, hge⟩ := hopen
        have hslot := h.holds id _ ((h.consistent.opened_iff slot id).mp hmem)
        have hlt : slot < s.stack.size := by
          rw [h.height_eq]
          exact (List.getElem?_eq_some_iff.mp hslot).1
        have hclosed := (hcloses.closed slot id hmem hge).symm.trans hcell
        cases hclosed
        refine ⟨fun hdead => ?_, ?_⟩
        · obtain ⟨slot', hlt', hslot'⟩ := getElem_of_mem hdead
          have hsame := h.slot_inj (List.getElem?_eq_some_iff.mpr ⟨_, getElem_take ▸ hslot'⟩) hslot
          rw [length_take] at hlt'
          omega
        · show m.value? _ = _
          rw [h.slot_value slot _ hslot]
          simp [Cells.slotValue, hlt]
      · have hbelow : ∀ slot, (slot, id) ∈ s.cells.opened → slot < height :=
          fun slot hmem => Nat.lt_of_not_le fun hge => hopen ⟨slot, hmem, hge⟩
        have hcell' : s.cells.all[id]? = some cell := (hcloses.kept id hbelow).symm.trans hcell
        have hholds := h.holds id cell hcell'
        cases cell with
        | opened slot =>
          have hlt := hbelow slot ((h.consistent.opened_iff slot id).mpr hcell')
          exact (List.getElem?_take_of_lt hlt).trans hholds
        | closed v => exact ⟨fun hmem => hholds.1 (mem_of_mem_take hmem), hholds.2⟩
    · rw [step, hcloses.size_eq]
      exact h.injective
    · rw [step, hcloses.size_eq]
      exact h.reference_lt
  · cases hstep

theorem Stands.step {op : VariableOp} (hstep : m.step? op = some m') :
    ∃ variableOf', (s.step op).Stands m' variableOf' := by
  cases op with
  | push v => exact ⟨_, h.push v hstep⟩
  | assign slot v =>
    obtain ⟨x, hslot, rfl⟩ := Option.map_eq_some_iff.mp hstep
    exact ⟨_, h.setSlot hslot v⟩
  | capture slot => exact h.capture hstep
  | read reference =>
    obtain ⟨x, href, rfl⟩ := Option.map_eq_some_iff.mp hstep
    obtain ⟨hlt, rfl⟩ := h.cellOf href
    rw [h.read hlt]
    exact ⟨_, { h with reads_eq := congrArg (_ :: ·) h.reads_eq }⟩
  | write reference v => exact ⟨_, h.write hstep⟩
  | truncate height => exact ⟨_, h.truncate hstep⟩

theorem Stands.foldl {ops : List VariableOp} (hrun : ops.foldlM Variables.step? m = some m') :
    ∃ variableOf', (ops.foldl CellStack.step s).Stands m' variableOf' := by
  induction ops generalizing s m variableOf with
  | nil =>
    cases hrun
    exact ⟨_, h⟩
  | cons op rest ih =>
    obtain ⟨m1, hstep, hrest⟩ := Option.bind_eq_some_iff.mp hrun
    obtain ⟨_, h1⟩ := h.step hstep
    exact ih h1 hrest

theorem Stands.values_eq : m.slots.map m.value? = s.stack.toList.map some := by
  refine ext_getElem? fun slot => ?_
  rw [List.getElem?_map, List.getElem?_map, Array.getElem?_toList]
  cases hslot : m.slots[slot]? with
  | none =>
    have hle := List.getElem?_eq_none_iff.mp hslot
    rw [Array.getElem?_eq_none (by rw [h.height_eq]; exact hle)]
    rfl
  | some x =>
    have hlt := (List.getElem?_eq_some_iff.mp hslot).1
    rw [Option.map_some, h.slot_value slot x hslot,
      Array.getElem?_eq_getElem (by rw [h.height_eq]; exact hlt)]
    rfl

/-- Two references lead to one cell if and only if they lead to one variable. -/
theorem Stands.same_iff (i j : Nat) : s.references[i]? = s.references[j]? ↔ m.references[i]? = m.references[j]? := by
  rw [h.references_eq, Array.getElem?_map, Array.getElem?_map]
  refine ⟨congrArg _, fun heq => ?_⟩
  cases hi : s.references[i]? with
  | none =>
    rw [hi] at heq
    exact (Option.map_eq_none_iff.mp heq.symm).symm
  | some id =>
    rw [hi, Option.map_some] at heq
    obtain ⟨id', hj, hsame⟩ := Option.map_eq_some_iff.mp heq.symm
    rw [hj, h.injective id' (h.reference_lt id' (Array.mem_of_getElem? hj)) id
      (h.reference_lt id (Array.mem_of_getElem? hi)) hsame]

end

/-- Through its slot and through every cell that captured it, a variable is the same variable. In a run
of any operations, the stack and all reads through cells are those of shared variables without cells,
and two captures gave the same cell if and only if they captured the same variable. -/
theorem run_refines_variables {ops : List VariableOp} {m : Variables} (hrun : Variables.run? ops = some m) :
    (run ops).reads = m.reads ∧
      (run ops).stack.toList.map some = m.slots.map m.value? ∧
      (run ops).references.size = m.references.size ∧
      ∀ i j : Nat, (run ops).references[i]? = (run ops).references[j]? ↔
        m.references[i]? = m.references[j]? := by
  obtain ⟨variableOf, h⟩ : ∃ variableOf, (run ops).Stands m variableOf := stands_empty.foldl hrun
  refine ⟨h.reads_eq.symm, h.values_eq.symm, ?_, h.same_iff⟩
  rw [h.references_eq, Array.size_map]

/-- A captured variable leaves its slot, another one takes the slot and is captured twice, and both are
written through their cells. -/
def reusedSlot : List VariableOp :=
  [.push (.text "a"), .capture 0, .truncate 0, .push (.text "b"), .capture 0, .capture 0,
    .write 0 (.text "c"), .write 1 (.text "d"), .read 0, .read 2]

theorem run_refines_variables_reusedSlot : ∃ m, Variables.run? reusedSlot = some m ∧ m.references = #[0, 1, 1] ∧
      (run reusedSlot).reads = [.text "d", .text "c"] ∧
      (run reusedSlot).stack.toList.map some = m.slots.map m.value? ∧
      (run reusedSlot).references[0]? ≠ (run reusedSlot).references[1]? ∧
      (run reusedSlot).references[1]? = (run reusedSlot).references[2]? := by
  obtain ⟨hreads, hstack, _, hsame⟩ := @run_refines_variables reusedSlot _ rfl
  exact ⟨_, rfl, rfl, hreads, hstack, fun h => absurd ((hsame 0 1).mp h) (by decide),
    (hsame 1 2).mpr rfl⟩

end CellStack

end Mudscript
