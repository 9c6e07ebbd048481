import Mudscript.Compile.Function

/-!
# Expressions

An expression leaves its value on the stack. It is read by precedence: a token that can start an
expression, then operators as long as they bind tightly enough. Operands are compiled from left to
right and the operator follows them; `&&` and `||` jump over their right operand instead.
-/

namespace Mudscript.Compile

def compoundOperation? : TokenKind → Option Instruction
  | .symbol .plusEqual => some .add
  | .symbol .minusEqual => some .subtract
  | .symbol .starEqual => some .multiply
  | .symbol .slashEqual => some .divide
  | _ => none

def binaryOperation? : TokenKind → Option Instruction
  | .symbol .plus => some .add
  | .symbol .minus => some .subtract
  | .symbol .star => some .multiply
  | .symbol .slash => some .divide
  | .symbol .percent => some .modulo
  | .symbol .equalEqual => some .equal
  | .symbol .bangEqual => some .notEqual
  | .symbol .greater => some .greater
  | .symbol .greaterEqual => some .greaterEqual
  | .symbol .less => some .less
  | .symbol .lessEqual => some .lessEqual
  | _ => none

variable (bound : Nat) (g : Grammar)

def operand : Compile Unit := g (.expression .assignment)

def grouping : Compile Unit := do
  operand g
  expect (.symbol .rightParen) "')' after expression"

def unary (operation : Instruction) : Compile Unit := do
  g (.expression .unary)
  emit operation

def binary (operator : TokenKind) : Compile Unit := do
  g (.expression operator.precedence.tighter)
  match binaryOperation? operator with
  | some operation => emit operation
  | none => pure ()

def conjunction : Compile Unit := do
  let toEnd ← emitJump .jumpIfFalse
  emit .pop
  g (.expression .and)
  patchJump toEnd

def disjunction : Compile Unit := do
  let toRight ← emitJump .jumpIfFalse
  let toEnd ← emitJump .jump
  patchJump toRight
  emit .pop
  g (.expression .or)
  patchJump toEnd

/-! ### Calls -/

/-- One argument, and the number of arguments so far; it stops growing at the limit. -/
def argument (count : Nat) : Compile Nat := do
  operand g
  if count = maxArguments then
    mistake .tooManyArguments
    return count
  else return count + 1

def argumentsFrom : Nat → Nat → Compile Nat
  | 0, count => do
    exhaust
    return count
  | bound + 1, count => do
    let count ← argument g count
    if ← accept (.symbol .comma) then argumentsFrom bound count else return count

/-- The arguments of a call, behind the opening parenthesis, and how many there are. -/
def arguments : Compile Nat := do
  let count ← if ← check (.symbol .rightParen) then pure 0 else argumentsFrom g bound 0
  expect (.symbol .rightParen) "')' after arguments"
  return count

def call : Compile Unit := do emit (.call (← arguments bound g))

/-! ### Variables and properties -/

def emitGet : Access → Compile Unit
  | .local_ slot => emit (.getLocal slot)
  | .upvalue index => emit (.getUpvalue index)
  | .global name => emit (.getGlobal name)
  | .property name => do
    emitReceiver
    emit (.getProperty name)

/-- Stores the value on top of the stack, which for a property lies above the receiver. -/
def emitSet : Access → Compile Unit
  | .local_ slot => emit (.setLocal slot)
  | .upvalue index => emit (.setUpvalue index)
  | .global name => emit (.setGlobal name)
  | .property name => emit (.setProperty name)

/-- Takes an assignment operator, if assignment is possible here and one is ahead. -/
def assignment? (canAssign : Bool) : Compile (Option TokenKind) := do
  let ahead ← current
  if canAssign && ahead.isAssignment then
    advance
    return some ahead
  else return none

/-- The right side of an assignment to a property of the value on top of the stack. -/
def assignProperty (name : Nat) (operator : TokenKind) : Compile Unit := do
  match compoundOperation? operator with
  | some operation =>
    emit .dup
    emit (.getProperty name)
    operand g
    emit operation
  | none => operand g
  emit (.setProperty name)

def assignVariable (access : Access) (operator : TokenKind) : Compile Unit := do
  match compoundOperation? operator with
  | some operation =>
    emitGet access
    operand g
    emit operation
  | none => operand g
  emitSet access

/-- A use of a property of the receiver by its bare name, which means `this->name`. -/
def receiverProperty (name : Nat) (assignment : Option TokenKind) : Compile Unit := do
  emitReceiver
  match assignment with
  | some operator => assignProperty g name operator
  | none =>
    if ← accept (.symbol .leftParen) then
      emit (.invoke name (← arguments bound g))
    else emit (.getProperty name)

/-- A name at the start of an expression: a read, a call or an assignment. -/
def variable_ (name : String) (canAssign : Bool) : Compile Unit := do
  match ← resolve name with
  | .error fault => mistake (.scope fault)
  | .ok access =>
    let assignment ← assignment? canAssign
    match access, assignment with
    | .property constant, assignment => receiverProperty bound g constant assignment
    | access, some operator => assignVariable g access operator
    | access, none => emitGet access

/-- A property of the value on top of the stack, behind the arrow: a read, a call or an
assignment. -/
def arrow (canAssign : Bool) : Compile Unit := do
  let name ← nameConstant (← expectName "property name after '->'")
  match ← assignment? canAssign with
  | some operator => assignProperty g name operator
  | none =>
    if ← accept (.symbol .leftParen) then
      emit (.invoke name (← arguments bound g))
    else emit (.getProperty name)

def this : Compile Unit := do
  if (← read).scopes.inObject then emitReceiver else mistake .thisOutsideObject

def superCall : Compile Unit := do
  if (← read).owner.isNone then mistake .superOutsideObject
  else
    let name ← nameConstant (← expectName "method name after '::'")
    expect (.symbol .leftParen) "'(' after method name"
    emitReceiver
    let count ← arguments bound g
    emitReceiver
    emit .super
    emit (.superInvoke name count)

/-! ### Precedence -/

/-- Compiles what starts with the given token, which was just taken. Answers `false` if no
expression starts with it. -/
def startWith (token : TokenKind) (canAssign : Bool) : Compile Bool := do
  match token with
  | .symbol .leftParen => grouping g
  | .symbol .minus => unary g .negate
  | .symbol .bang => unary g .not
  | .number n => emitConstant (.number n)
  | .text s => emitConstant (.text s)
  | .keyword .nil => emit .pushNil
  | .keyword .true_ => emit .pushTrue
  | .keyword .false_ => emit .pushFalse
  | .name name => variable_ bound g name canAssign
  | .keyword .this => this
  | .keyword .function => function bound g .function ""
  | .symbol .doubleColon => superCall bound g
  | _ => return false
  return true

/-- Compiles what follows a value behind the given operator, which was just taken. -/
def continueWith (operator : TokenKind) (canAssign : Bool) : Compile Unit :=
  match operator with
  | .symbol .and => conjunction g
  | .symbol .or => disjunction g
  | .symbol .leftParen => call bound g
  | .symbol .arrow => arrow bound g canAssign
  | operator => binary g operator

/-- One operator and what belongs to it, if it binds at least as tightly as `minimum`. -/
def operation (minimum : Precedence) (canAssign : Bool) : Compile Bool := do
  let ahead ← current
  if minimum ≤ ahead.precedence then
    advance
    continueWith bound g ahead canAssign
    return true
  else return false

/-- An expression whose operators bind at least as tightly as `minimum`. An assignment operator left
over at its end follows something that cannot be assigned to. -/
def precedence (minimum : Precedence) : Compile Unit := do
  advance
  let canAssign : Bool := minimum ≤ .assignment
  if ← startWith bound g (← previous) canAssign then
    repeatUpTo (operation bound g minimum canAssign) bound
    if (← assignment? canAssign).isSome then mistake .invalidAssignmentTarget
  else mistake (.expected "expression")

def expression : Compile Unit := precedence bound g .assignment

end Mudscript.Compile
