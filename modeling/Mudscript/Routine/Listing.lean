import Mudscript.Instruction
import Mudscript.Number.Decimal
import Mudscript.Text.Layout

/-!
# Listings

The code of a routine as text, an instruction a line: its offset, its source line (or a bar where
that is the line of the byte before), its mnemonic and its operands. The listings of the routines in
the constant pool follow, each after an empty line.
-/

namespace Mudscript

open Text (padStart padEnd)

/-- The integer nearest to `k` that fits 64 bits with a sign. -/
def clampInt64 (k : Int) : Int := max (-9223372036854775808) (min 9223372036854775807 k)

/-- A number in a listing: a whole number as a 64-bit integer, any other in full. -/
def Number.listed (n : Number) : String :=
  match n.whole? with
  | some k => toString (clampInt64 k)
  | none => n.text

def Constant.listed : Constant → String
  | .number n => n.listed
  | .text s => s
  | .routine r => "<fn " ++ r.name ++ ">"

namespace Code

def offsetText (offset : Nat) : String := padStart 4 '0' (toString offset)

def constantText (code : Code) (index : Nat) : String :=
  match code.constants[index]? with
  | some c => c.listed
  | none => "???"

/-- The captures of a closure, a line each, and where they end. -/
def captureLines (code : Code) : Nat → Nat → String × Nat
  | 0, offset => ("", offset)
  | count + 1, offset =>
    let (lines, next) := code.captureLines count (offset + 2)
    ("\n" ++ offsetText offset ++ "    |   " ++ (if code.byteAt offset = 1 then "local " else "upvalue ") ++
      toString (code.byteAt (offset + 1)).toNat ++ lines, next)

/-- An operation with its operands, which start at an offset, and where they end. An operation with
operands has a column for its mnemonic. -/
def operationText (code : Code) (op : Opcode) (operands : Nat) : String × Nat :=
  let column := fun (n : Nat) => padEnd 16 ' ' op.mnemonic ++ " " ++ padStart 4 ' ' (toString n)
  let constant := fun (n : Nat) => column n ++ " (" ++ code.constantText n ++ ")"
  let jump := fun (n target : Nat) => column n ++ " -> " ++ offsetText target
  let word := code.wordAt operands
  match op with
  | .getLocal | .setLocal | .getUpvalue | .setUpvalue | .call =>
    (column (code.byteAt operands).toNat, operands + 1)
  | .constant | .getGlobal | .defineGlobal | .setGlobal | .getProperty | .setProperty | .object
  | .field | .method => (constant word, operands + 2)
  | .jump | .jumpIfFalse => (jump word (operands + 2 + word), operands + 2)
  | .loop => (jump word (operands + 2 - word), operands + 2)
  | .invoke | .superInvoke =>
    (constant word ++ " args=" ++ toString (code.byteAt (operands + 2)).toNat, operands + 3)
  | .closure =>
    let (lines, next) := code.captureLines (code.captureCount word) (operands + 2)
    (constant word ++ lines, next)
  | _ => (op.mnemonic, operands)

/-- The source line of an offset, or a bar if that is the line of the byte before. -/
def lineColumn (code : Code) (offset : Nat) : String :=
  if 0 < offset ∧ code.lineAt (offset - 1) = code.lineAt offset then "   |"
  else padStart 4 ' ' (toString (code.lineAt offset))

/-- What is listed at an offset, and the offset at which the listing goes on. -/
def listed (code : Code) (offset : Nat) : String × Nat :=
  let (text, next) :=
    match Opcode.ofByte? (code.byteAt offset) with
    | some op => code.operationText op (offset + 1)
    | none => ("UNKNOWN " ++ toString (code.byteAt offset), offset + 1)
  (offsetText offset ++ " " ++ code.lineColumn offset ++ " " ++ text, next)

def lineText (code : Code) (offset : Nat) : String := (code.listed offset).1

theorem captureLines_snd (code : Code) (count offset : Nat) :
    (code.captureLines count offset).2 = offset + 2 * count := by
  induction count generalizing offset with
  | zero => rfl
  | succ count ih =>
    show (code.captureLines count (offset + 2)).2 = _
    rw [ih]
    omega

theorem le_operationText (code : Code) (op : Opcode) (operands : Nat) :
    operands ≤ (code.operationText op operands).2 := by
  cases op with
  | closure =>
    show operands ≤ (code.captureLines _ (operands + 2)).2
    rw [captureLines_snd]
    omega
  | _ => simp [operationText]

theorem lt_listed (code : Code) (offset : Nat) : offset < (code.listed offset).2 := by
  unfold listed
  cases Opcode.ofByte? (code.byteAt offset) with
  | none => exact Nat.lt_succ_self offset
  | some op => exact code.le_operationText op (offset + 1)

def listFrom (code : Code) (offset : Nat) (out : String) : String :=
  if offset < code.size then
    listFrom code (code.listed offset).2 (out ++ code.lineText offset ++ "\n")
  else out
termination_by code.size - offset
decreasing_by
  have := code.lt_listed offset
  omega

end Code

def Routine.heading (r : Routine) : String :=
  "== " ++ r.frameName ++ " (arity=" ++ toString r.arity ++ ", upvalues=" ++
    toString r.upvalueCount ++ ") ==\n"

mutual

def Routine.listing : Routine → String
  | ⟨kind, name, arity, upvalueCount, owner, code⟩ =>
    code.listFrom 0 (Routine.heading ⟨kind, name, arity, upvalueCount, owner, code⟩) ++
      code.nestedListings

def Code.nestedListings : Code → String
  | ⟨_, _, ⟨constants⟩⟩ => Constant.listings constants

def Constant.listings : List Constant → String
  | [] => ""
  | .routine r :: rest => "\n" ++ r.listing ++ Constant.listings rest
  | .number _ :: rest => Constant.listings rest
  | .text _ :: rest => Constant.listings rest

end

end Mudscript
