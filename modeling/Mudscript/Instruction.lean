import Mudscript.Opcode
import Mudscript.Routine

/-!
# Instructions

An instruction with its operands, how it is written as bytes, and how a machine reads it back: the
operation first, and then its operands, one behind the other. Where the last of them ends the machine
goes on.
-/

namespace Mudscript

/-- Where a closure finds a captured variable when it is made: in a slot of the enclosing call, or
among the variables that call itself captured. -/
structure Capture where
  fromLocal : Bool
  index : Nat
  deriving DecidableEq, Repr

/-- An operation with its operands. Constants and names are indices into the pool, and distances
count bytes from the end of the instruction. -/
inductive Instruction
  | constant (index : Nat)
  | pushNil | pushTrue | pushFalse | pop | dup
  | getLocal (slot : Nat) | setLocal (slot : Nat)
  | getGlobal (name : Nat) | defineGlobal (name : Nat) | setGlobal (name : Nat)
  | getUpvalue (index : Nat) | setUpvalue (index : Nat) | closeUpvalue
  | getProperty (name : Nat) | setProperty (name : Nat)
  | equal | notEqual | greater | greaterEqual | less | lessEqual
  | add | subtract | multiply | divide | modulo | not | negate
  | jump (distance : Nat) | jumpIfFalse (distance : Nat) | loop (distance : Nat)
  | call (arguments : Nat) | invoke (name arguments : Nat) | superInvoke (name arguments : Nat)
  | closure (routine : Nat) (captures : List Capture)
  | ret | object (name : Nat) | compile | inherit | field (name : Nat) | method (name : Nat) | super
  deriving DecidableEq, Repr

/-- A number below 65536 as two bytes, the high byte first. -/
def wordBytes (n : Nat) : List UInt8 := [.ofNat (n / 256), .ofNat n]

def Capture.bytes (c : Capture) : List UInt8 := [if c.fromLocal then 1 else 0, .ofNat c.index]

namespace Instruction

def opcode : Instruction → Opcode
  | .constant _ => .constant
  | .pushNil => .pushNil
  | .pushTrue => .pushTrue
  | .pushFalse => .pushFalse
  | .pop => .pop
  | .dup => .dup
  | .getLocal _ => .getLocal
  | .setLocal _ => .setLocal
  | .getGlobal _ => .getGlobal
  | .defineGlobal _ => .defineGlobal
  | .setGlobal _ => .setGlobal
  | .getUpvalue _ => .getUpvalue
  | .setUpvalue _ => .setUpvalue
  | .closeUpvalue => .closeUpvalue
  | .getProperty _ => .getProperty
  | .setProperty _ => .setProperty
  | .equal => .equal
  | .notEqual => .notEqual
  | .greater => .greater
  | .greaterEqual => .greaterEqual
  | .less => .less
  | .lessEqual => .lessEqual
  | .add => .add
  | .subtract => .subtract
  | .multiply => .multiply
  | .divide => .divide
  | .modulo => .modulo
  | .not => .not
  | .negate => .negate
  | .jump _ => .jump
  | .jumpIfFalse _ => .jumpIfFalse
  | .loop _ => .loop
  | .call _ => .call
  | .invoke _ _ => .invoke
  | .superInvoke _ _ => .superInvoke
  | .closure _ _ => .closure
  | .ret => .ret
  | .object _ => .object
  | .compile => .compile
  | .inherit => .inherit
  | .field _ => .field
  | .method _ => .method
  | .super => .super

def operands : Instruction → List UInt8
  | .getLocal n | .setLocal n | .getUpvalue n | .setUpvalue n | .call n => [.ofNat n]
  | .constant n | .getGlobal n | .defineGlobal n | .setGlobal n | .getProperty n | .setProperty n
  | .jump n | .jumpIfFalse n | .loop n | .object n | .field n | .method n => wordBytes n
  | .invoke n k | .superInvoke n k => wordBytes n ++ [.ofNat k]
  | .closure n captures => wordBytes n ++ captures.flatMap Capture.bytes
  | _ => []

def encode (i : Instruction) : List UInt8 := i.opcode.toByte :: i.operands

def size : Instruction → Nat
  | .closure _ captures => 3 + 2 * captures.length
  | i => 1 + i.opcode.operandSize

theorem length_encode (i : Instruction) : i.encode.length = i.size := by
  cases i
  case closure n captures =>
    have pairs : (captures.flatMap Capture.bytes).length = 2 * captures.length := by
      induction captures with
      | nil => rfl
      | cons c rest ih => simp only [List.flatMap_cons, List.length_append, ih, List.length_cons,
          Capture.bytes, List.length_nil]; omega
    simp only [encode, operands, wordBytes, size, List.length_cons, List.length_append, pairs,
      List.length_nil]
    omega
  all_goals rfl

theorem size_pos (i : Instruction) : 0 < i.size := by
  rw [← length_encode]
  exact Nat.succ_pos _

end Instruction

/-- The captures of a closure instruction whose routine has the given index: as many as the routine
asks for, and none if the index is no routine. -/
def Code.captureCount (code : Code) (index : Nat) : Nat :=
  match code.routineAt? index with
  | some routine => routine.upvalueCount
  | none => 0

/-- Reading code from a place on, which moves on with what is read. -/
abbrev Fetch := ReaderT Code (StateM Nat)

namespace Fetch

def byte : Fetch UInt8 := fun code offset => (code.byteAt offset, offset + 1)

def word : Fetch Nat := return 256 * (← byte).toNat + (← byte).toNat

def captures : Nat → Fetch (List Capture)
  | 0 => return []
  | count + 1 => do
    let kind ← byte
    let index ← byte
    return ⟨kind = 1, index.toNat⟩ :: (← captures count)

def operands : Opcode → Fetch Instruction
  | .constant => return .constant (← word)
  | .pushNil => return .pushNil
  | .pushTrue => return .pushTrue
  | .pushFalse => return .pushFalse
  | .pop => return .pop
  | .dup => return .dup
  | .getLocal => return .getLocal (← byte).toNat
  | .setLocal => return .setLocal (← byte).toNat
  | .getGlobal => return .getGlobal (← word)
  | .defineGlobal => return .defineGlobal (← word)
  | .setGlobal => return .setGlobal (← word)
  | .getUpvalue => return .getUpvalue (← byte).toNat
  | .setUpvalue => return .setUpvalue (← byte).toNat
  | .closeUpvalue => return .closeUpvalue
  | .getProperty => return .getProperty (← word)
  | .setProperty => return .setProperty (← word)
  | .equal => return .equal
  | .notEqual => return .notEqual
  | .greater => return .greater
  | .greaterEqual => return .greaterEqual
  | .less => return .less
  | .lessEqual => return .lessEqual
  | .add => return .add
  | .subtract => return .subtract
  | .multiply => return .multiply
  | .divide => return .divide
  | .modulo => return .modulo
  | .not => return .not
  | .negate => return .negate
  | .jump => return .jump (← word)
  | .jumpIfFalse => return .jumpIfFalse (← word)
  | .loop => return .loop (← word)
  | .call => return .call (← byte).toNat
  | .invoke => return .invoke (← word) (← byte).toNat
  | .superInvoke => return .superInvoke (← word) (← byte).toNat
  | .closure => do
    let routine ← word
    return .closure routine (← captures ((← read).captureCount routine))
  | .ret => return .ret
  | .object => return .object (← word)
  | .compile => return .compile
  | .inherit => return .inherit
  | .field => return .field (← word)
  | .method => return .method (← word)
  | .super => return .super

theorem captures_snd (code : Code) (count offset : Nat) : (captures count code offset).2 = offset + 2 * count := by
  induction count generalizing offset with
  | zero => rfl
  | succ count ih =>
    show (captures count code (offset + 1 + 1)).2 = _
    rw [ih]
    omega

theorem length_captures (code : Code) (count offset : Nat) : (captures count code offset).1.length = count := by
  induction count generalizing offset with
  | zero => rfl
  | succ count ih => exact congrArg Nat.succ (ih (offset + 1 + 1))

end Fetch

namespace Code

/-- The instruction at an offset and where the machine goes on behind it, unless the byte there is no
operation code. -/
def fetch? (code : Code) (offset : Nat) : Option (Instruction × Nat) :=
  (Opcode.ofByte? (code.byteAt offset)).map fun op => Fetch.operands op code (offset + 1)

def instructionAt? (code : Code) (offset : Nat) : Option Instruction := (code.fetch? offset).map Prod.fst

/-- Reading an instruction ends where the widths of its operands say. -/
theorem fetch?_eq (code : Code) (offset : Nat) :
    code.fetch? offset = (code.instructionAt? offset).map fun i => (i, offset + i.size) := by
  unfold instructionAt? fetch?
  cases Opcode.ofByte? (code.byteAt offset) with
  | none => rfl
  | some op =>
    refine congrArg some (Prod.ext rfl ?_)
    cases op with
    | closure =>
      show (Fetch.captures _ code (offset + 1 + 1 + 1)).2
        = offset + (3 + 2 * (Fetch.captures _ code (offset + 1 + 1 + 1)).1.length)
      rw [Fetch.captures_snd, Fetch.length_captures]
      omega
    | _ => rfl

/-- Where the next instruction starts. An unknown operation counts as one byte. -/
def nextOffset (code : Code) (offset : Nat) : Nat :=
  match code.instructionAt? offset with
  | some i => offset + i.size
  | none => offset + 1

theorem lt_nextOffset (code : Code) (offset : Nat) : offset < code.nextOffset offset := by
  unfold nextOffset
  split
  · exact Nat.lt_add_of_pos_right (Instruction.size_pos _)
  · exact Nat.lt_succ_self offset

end Code

end Mudscript
