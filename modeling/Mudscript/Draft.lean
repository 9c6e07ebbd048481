import Mudscript.Instruction
import Std.Data.HashMap

/-!
# Code under construction

A draft is code that is still being written. Its pool keeps numbers and texts once each: equal texts
share an entry, and so do numbers with equal bits, while a routine always gets an entry of its own.
A forward jump is written with a placeholder and patched when its target is known.
-/

namespace Mudscript

/-- What makes two pooled constants the same. -/
inductive ConstantKey
  | number (value : Number)
  | text (value : String)
  deriving DecidableEq, Hashable

def Constant.key? : Constant → Option ConstantKey
  | .number n => some (.number n)
  | .text s => some (.text s)
  | .routine _ => none

inductive DraftFault
  | tooManyConstants | jumpTooLarge | loopTooLarge
  deriving DecidableEq, Repr

def DraftFault.message : DraftFault → String
  | .tooManyConstants => "Too many constants in one chunk."
  | .jumpTooLarge => "Too much code to jump over."
  | .loopTooLarge => "Loop body too large."

def maxWord : Nat := 65535

structure Draft where
  bytes : Array UInt8 := #[]
  lines : Array Nat := #[]
  constants : Array Constant := #[]
  /-- The entry of each number and text in the pool. -/
  entries : Std.HashMap ConstantKey Nat := {}

namespace Draft

def size (d : Draft) : Nat := d.bytes.size

def toCode (d : Draft) : Code := ⟨d.bytes, d.lines, d.constants⟩

def pushByte (d : Draft) (byte : UInt8) (line : Nat) : Draft :=
  { d with bytes := d.bytes.push byte, lines := d.lines.push line }

def append (d : Draft) (bytes : List UInt8) (line : Nat) : Draft :=
  bytes.foldl (fun d byte => d.pushByte byte line) d

def emit (d : Draft) (i : Instruction) (line : Nat) : Draft := d.append i.encode line

def pooled? (d : Draft) (c : Constant) : Option Nat := c.key?.bind fun key => d.entries[key]?

def pushConstant (d : Draft) (c : Constant) : Draft :=
  match d, c.key? with
  | ⟨bytes, lines, constants, entries⟩, some key =>
    let index := constants.size
    ⟨bytes, lines, constants.push c, entries.insert key index⟩
  | ⟨bytes, lines, constants, entries⟩, none => ⟨bytes, lines, constants.push c, entries⟩

/-- Adds a constant to the pool, or finds the entry it has already. A full pool stays as it is. -/
def addConstant (d : Draft) (c : Constant) : Except DraftFault Nat × Draft :=
  match d.pooled? c with
  | some index => (.ok index, d)
  | none =>
    let index := d.constants.size
    if index ≤ maxWord then (.ok index, d.pushConstant c) else (.error .tooManyConstants, d)

def patchWord (d : Draft) (offset value : Nat) : Draft :=
  let high := d.bytes.setIfInBounds offset (.ofNat (value / 256))
  { d with bytes := high.setIfInBounds (offset + 1) (.ofNat value) }

/-- Makes the jump whose operand is at `offset` land on the end of the code. Code that is too long
to jump over stays as it is. -/
def patchJump (d : Draft) (offset : Nat) : Option DraftFault × Draft :=
  let distance := d.size - offset - 2
  if distance ≤ maxWord then (none, d.patchWord offset distance) else (some .jumpTooLarge, d)

/-- The operand of a loop instruction, written next, that goes back to `start`: the distance from
the end of that instruction. -/
def loopDistance (d : Draft) (start : Nat) : Except DraftFault Nat :=
  let distance := d.size + 3 - start
  if distance ≤ maxWord then .ok distance else .error .loopTooLarge

end Draft

end Mudscript
