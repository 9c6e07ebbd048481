import Mudscript.Number

/-!
# Compiled routines

A routine is what one script, function, method or object unit compiles to: a header and its code.
Code is a string of bytes with the source line of each byte and a pool of constants, and a constant
may itself be a routine, so a compiled script holds every function written in it.
-/

namespace Mudscript

inductive RoutineKind
  | script | function | method | object
  deriving DecidableEq, Repr

mutual

inductive Constant
  | number (value : Number)
  | text (value : String)
  | routine (value : Routine)

structure Code where
  bytes : Array UInt8
  lines : Array Nat
  constants : Array Constant

structure Routine where
  kind : RoutineKind
  name : String
  arity : Nat
  upvalueCount : Nat
  owner : Option String
  code : Code

end

def Code.empty : Code := ⟨#[], #[], #[]⟩

instance : Inhabited Code := ⟨.empty⟩

instance : Inhabited Routine := ⟨⟨.script, "", 0, 0, none, .empty⟩⟩

namespace Code

def size (code : Code) : Nat := code.bytes.size

/-- The byte at an offset. There is nothing but zeros behind the code. -/
def byteAt (code : Code) (offset : Nat) : UInt8 := code.bytes[offset]?.getD 0

def wordAt (code : Code) (offset : Nat) : Nat :=
  256 * (code.byteAt offset).toNat + (code.byteAt (offset + 1)).toNat

/-- The source line of the byte at an offset, and `0` behind the code. -/
def lineAt (code : Code) (offset : Nat) : Nat := code.lines[offset]?.getD 0

/-- The text constant at an index; any other entry names nothing. -/
def nameAt (code : Code) (index : Nat) : String :=
  match code.constants[index]? with
  | some (.text name) => name
  | _ => ""

def routineAt? (code : Code) (index : Nat) : Option Routine :=
  match code.constants[index]? with
  | some (.routine routine) => some routine
  | _ => none

end Code

def Routine.frameName (r : Routine) : String :=
  match r.kind with
  | .script => "script " ++ r.name
  | .object => "object " ++ r.name
  | .function | .method => if r.name.isEmpty then "function()" else r.name ++ "()"

end Mudscript
