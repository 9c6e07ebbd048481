/-!
# Sets of characters as tables of ranges

A class of characters is a table of inclusive code point ranges in ascending order, searched by
halving.
-/

namespace Mudscript.Text

/-- Inclusive ranges of code points, ascending and apart. -/
abbrev Ranges := Array (Nat × Nat)

namespace Ranges

/-- The ranges of a list that tells, from code point `next` on, how many code points are left out, how many
belong to the class, and so on in turn. -/
def ofRunsFrom (next : Nat) (table : Ranges) : List Nat → Ranges
  | left :: kept :: runs =>
    ofRunsFrom (next + left + kept) (table.push (next + left, next + left + kept - 1)) runs
  | _ => table

def digit (c : Char) : Nat := if c.isDigit then c.toNat - '0'.toNat else c.toNat - 'a'.toNat + 10

/-- The numbers written in a text: one digit of base 36 each, or a decimal number between brackets, of which
`bracketed` was read so far. -/
def numbers (bracketed : Option Nat) : List Char → List Nat
  | [] => []
  | c :: cs =>
    match bracketed with
    | none => if c = '[' then numbers (some 0) cs else digit c :: numbers none cs
    | some n => if c = ']' then n :: numbers none cs else numbers (some (10 * n + digit c)) cs

/-- The ranges of the runs that are written in a text, from code point 0 on. Blanks divide the text into
lines and mean nothing. -/
def ofRuns (runs : String) : Ranges :=
  ofRunsFrom 0 #[] (numbers none (runs.toList.filter (!·.isWhitespace)))

/-- Halves the window `low ≤ i < high` until it is empty or a range contains `x`. -/
def containsWithin (table : Ranges) (x low high : Nat) : Bool :=
  if low < high then
    let middle := (low + high) / 2
    match table[middle]? with
    | none => false
    | some (first, last) =>
      if x < first then containsWithin table x low middle
      else if last < x then containsWithin table x (middle + 1) high
      else true
  else false
termination_by high - low

def contains (table : Ranges) (c : Char) : Bool := table.containsWithin c.toNat 0 table.size

end Ranges

end Mudscript.Text
