import Mudscript.Value

/-!
# Captured variables

A variable that a function captures must outlive the block it was declared in. Its cell is open as
long as the variable is on the stack, and names its slot; when the slot goes away the cell is closed
over the value the slot had. Functions that capture the same variable share its cell.

The open cells are listed by slot, in ascending order, so the cells above a given height form the
end of the list.
-/

namespace Mudscript

inductive Cell
  | opened (slot : Nat)
  | closed (value : Value)

/-- All cells that were ever made, and which of them are open, by slot. -/
structure Cells where
  all : Array Cell := #[]
  opened : List (Nat × CellId) := []

namespace Cells

def slotValue (stack : Array Value) (slot : Nat) : Value := stack[slot]?.getD .nil

def cellOf? (cells : Cells) (slot : Nat) : Option CellId := cells.opened.lookup slot

/-- Adds an entry to a list that ascends. -/
def insertSlot (slot : Nat) (id : CellId) : List (Nat × CellId) → List (Nat × CellId)
  | [] => [(slot, id)]
  | entry :: rest =>
    if entry.1 < slot then entry :: insertSlot slot id rest else (slot, id) :: entry :: rest

/-- The open cell of a slot, which is made unless a function has captured the slot already. -/
def capture (cells : Cells) (slot : Nat) : CellId × Cells :=
  match cells.cellOf? slot with
  | some id => (id, cells)
  | none =>
    let id := cells.all.size
    (id, { all := cells.all.push (.opened slot), opened := insertSlot slot id cells.opened })

/-- Closes every open cell at `height` or above over the value of its slot. -/
def closeFrom (cells : Cells) (height : Nat) (stack : Array Value) : Cells :=
  let close := fun (all : Array Cell) ((slot, id) : Nat × CellId) =>
    all.setIfInBounds id (.closed (slotValue stack slot))
  { all := (cells.opened.dropWhile (·.1 < height)).foldl close cells.all
    opened := cells.opened.takeWhile (·.1 < height) }

def read (cells : Cells) (id : CellId) (stack : Array Value) : Value :=
  match cells.all[id]? with
  | some (.opened slot) => slotValue stack slot
  | some (.closed value) => value
  | none => .nil

/-- Writes through a cell: to its slot while it is open, and into the cell afterwards. -/
def write (cells : Cells) (id : CellId) (value : Value) (stack : Array Value) :
    Cells × Array Value :=
  match cells.all[id]? with
  | some (.opened slot) => (cells, stack.setIfInBounds slot value)
  | some (.closed _) => ({ cells with all := cells.all.setIfInBounds id (.closed value) }, stack)
  | none => (cells, stack)

end Cells

end Mudscript
