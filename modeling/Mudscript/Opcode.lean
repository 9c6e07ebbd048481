/-!
# Operation codes

The first byte of an instruction names its operation. The codes are dense: the operations in
`Opcode.all` have the codes 0, 1, 2 and so on, and no other byte is an operation.
-/

namespace Mudscript

inductive Opcode
  | constant | pushNil | pushTrue | pushFalse | pop | dup
  | getLocal | setLocal | getGlobal | defineGlobal | setGlobal
  | getUpvalue | setUpvalue | closeUpvalue | getProperty | setProperty
  | equal | notEqual | greater | greaterEqual | less | lessEqual
  | add | subtract | multiply | divide | modulo | not | negate
  | jump | jumpIfFalse | loop | call | invoke | superInvoke | closure | ret
  | object | compile | inherit | field | method | super
  deriving DecidableEq, Repr

namespace Opcode

def all : Array Opcode := #[
  .constant, .pushNil, .pushTrue, .pushFalse, .pop, .dup,
  .getLocal, .setLocal, .getGlobal, .defineGlobal, .setGlobal,
  .getUpvalue, .setUpvalue, .closeUpvalue, .getProperty, .setProperty,
  .equal, .notEqual, .greater, .greaterEqual, .less, .lessEqual,
  .add, .subtract, .multiply, .divide, .modulo, .not, .negate,
  .jump, .jumpIfFalse, .loop, .call, .invoke, .superInvoke, .closure, .ret,
  .object, .compile, .inherit, .field, .method, .super]

def toByte (op : Opcode) : UInt8 := .ofNat op.ctorIdx

def ofByte? (byte : UInt8) : Option Opcode := all[byte.toNat]?

theorem ofByte?_toByte (op : Opcode) : ofByte? op.toByte = some op := by
  cases op <;> rfl

def mnemonic : Opcode → String
  | .constant => "CONSTANT"
  | .pushNil => "NIL"
  | .pushTrue => "TRUE"
  | .pushFalse => "FALSE"
  | .pop => "POP"
  | .dup => "DUP"
  | .getLocal => "GET_LOCAL"
  | .setLocal => "SET_LOCAL"
  | .getGlobal => "GET_GLOBAL"
  | .defineGlobal => "DEFINE_GLOBAL"
  | .setGlobal => "SET_GLOBAL"
  | .getUpvalue => "GET_UPVALUE"
  | .setUpvalue => "SET_UPVALUE"
  | .closeUpvalue => "CLOSE_UPVALUE"
  | .getProperty => "GET_PROPERTY"
  | .setProperty => "SET_PROPERTY"
  | .equal => "EQUAL"
  | .notEqual => "NOT_EQUAL"
  | .greater => "GREATER"
  | .greaterEqual => "GREATER_EQUAL"
  | .less => "LESS"
  | .lessEqual => "LESS_EQUAL"
  | .add => "ADD"
  | .subtract => "SUBTRACT"
  | .multiply => "MULTIPLY"
  | .divide => "DIVIDE"
  | .modulo => "MODULO"
  | .not => "NOT"
  | .negate => "NEGATE"
  | .jump => "JUMP"
  | .jumpIfFalse => "JUMP_IF_FALSE"
  | .loop => "LOOP"
  | .call => "CALL"
  | .invoke => "INVOKE"
  | .superInvoke => "SUPER_INVOKE"
  | .closure => "CLOSURE"
  | .ret => "RETURN"
  | .object => "OBJECT"
  | .compile => "COMPILE"
  | .inherit => "INHERIT"
  | .field => "FIELD"
  | .method => "METHOD"
  | .super => "SUPER"

/-- How many bytes of operands follow the code. The captures of a closure come after these. -/
def operandSize : Opcode → Nat
  | .getLocal | .setLocal | .getUpvalue | .setUpvalue | .call => 1
  | .constant | .getGlobal | .defineGlobal | .setGlobal | .getProperty | .setProperty
  | .jump | .jumpIfFalse | .loop | .closure | .object | .field | .method => 2
  | .invoke | .superInvoke => 3
  | _ => 0

end Opcode

end Mudscript
