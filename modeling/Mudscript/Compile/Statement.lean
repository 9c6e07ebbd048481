import Mudscript.Compile.Expression

/-!
# Statements and declarations

A statement leaves the stack as high as it found it, and a declaration in a block leaves the values
of its locals on it. Outside every block a script declares global variables.
-/

namespace Mudscript.Compile

variable (bound : Nat) (g : Grammar)

/-! ### Declarations -/

def atGlobalLevel : Compile Bool := do
  let s ← scope
  return s.depth = 0 && s.kind = .script

/-- The value a variable starts with: its initializer, or nil. -/
def initializer : Compile Unit := do
  if ← accept (.symbol .equal) then expression bound g else emit .pushNil

def declareVariable (name : String) : Compile Unit := do
  if ← atGlobalLevel then
    let constant ← nameConstant name
    initializer bound g
    emit (.defineGlobal constant)
  else
    declare name
    initializer bound g
    define

def anotherVariable : Compile Bool := do
  if ← accept (.symbol .comma) then
    declareVariable bound g (← expectName "variable name")
    return true
  else return false

def variableDeclaration (first : String) : Compile Unit := do
  declareVariable bound g first
  repeatUpTo (anotherVariable bound g) bound
  expect (.symbol .semicolon) "';' after variable declaration"

/-- The rest of a function declaration, behind its name. A local function can call itself. -/
def functionDeclaration (name : String) : Compile Unit := do
  if ← atGlobalLevel then
    let constant ← nameConstant name
    function bound g .function name
    emit (.defineGlobal constant)
  else
    declare name
    define
    function bound g .function name

def typedDeclaration : Compile Unit := do
  let name ← expectName "variable name"
  if ← check (.symbol .leftParen) then functionDeclaration bound g name
  else variableDeclaration bound g name

/-! ### Loops -/

def beginLoop (continueAt : Nat) : Compile Unit :=
  modifyScope fun s => { s with loops := ⟨continueAt, s.depth, #[]⟩ :: s.loops }

/-- Ends the innermost loop. Its `break` jumps land here. -/
def endLoop : Compile Unit := do
  match (← scope).loops with
  | [] => pure ()
  | l :: outer =>
    modifyScope fun s => { s with loops := outer }
    l.breaks.forM patchJump

def discardAbove (depth : Int) : Compile Unit :=
  (onScopes fun c =>
    ((), { c.scopes with current := c.scopes.current.discardAbove depth c.previous.line })).as (.discard depth)

def addBreak (operand : Nat) : Compile Unit :=
  modifyScope fun s =>
    match s.loops with
    | [] => s
    | l :: outer => { s with loops := { l with breaks := l.breaks.push operand } :: outer }

def breakStatement : Compile Unit := do
  match (← scope).loops with
  | [] => mistake .breakOutsideLoop
  | l :: _ =>
    discardAbove l.depth
    addBreak (← emitJump .jump)
    expect (.symbol .semicolon) "';' after 'break'"

def continueStatement : Compile Unit := do
  match (← scope).loops with
  | [] => mistake .continueOutsideLoop
  | l :: _ =>
    discardAbove l.depth
    emitLoop l.continueAt
    expect (.symbol .semicolon) "';' after 'continue'"

def whileStatement : Compile Unit := do
  let start ← here
  expect (.symbol .leftParen) "'(' after 'while'"
  expression bound g
  expect (.symbol .rightParen) "')' after condition"
  let toExit ← emitJump .jumpIfFalse
  emit .pop
  beginLoop start
  g .statement
  emitLoop start
  patchJump toExit
  emit .pop
  endLoop

/-! ### Statements -/

def expressionStatement : Compile Unit := do
  expression bound g
  expect (.symbol .semicolon) "';' after expression"
  emit .pop

def forInitializer : Compile Unit := do
  if ← accept (.symbol .semicolon) then pure ()
  else if (← current).isType then
    advance
    variableDeclaration bound g (← expectName "variable name")
  else expressionStatement bound g

/-- The second clause of a `for`, and the jump that leaves the loop when the condition fails. -/
def forCondition : Compile (Option Nat) := do
  if ← accept (.symbol .semicolon) then return none
  else
    expression bound g
    expect (.symbol .semicolon) "';' after loop condition"
    let toExit ← emitJump .jumpIfFalse
    emit .pop
    return some toExit

/-- The third clause of a `for`, and where the body goes back to. The step is written before the
body and runs after it: the body is jumped to, goes back to the step, and the step to the
condition. -/
def forStep (condition : Nat) : Compile Nat := do
  if ← accept (.symbol .rightParen) then return condition
  else
    let toBody ← emitJump .jump
    let step ← here
    expression bound g
    emit .pop
    expect (.symbol .rightParen) "')' after for clauses"
    emitLoop condition
    patchJump toBody
    return step

def forStatement : Compile Unit := do
  beginBlock
  expect (.symbol .leftParen) "'(' after 'for'"
  forInitializer bound g
  let condition ← here
  let toExit ← forCondition bound g
  let back ← forStep bound g condition
  beginLoop back
  g .statement
  emitLoop back
  match toExit with
  | some toExit =>
    patchJump toExit
    emit .pop
  | none => pure ()
  endLoop
  endBlock

def ifStatement : Compile Unit := do
  expect (.symbol .leftParen) "'(' after 'if'"
  expression bound g
  expect (.symbol .rightParen) "')' after condition"
  let toElse ← emitJump .jumpIfFalse
  emit .pop
  g .statement
  let toEnd ← emitJump .jump
  patchJump toElse
  emit .pop
  if ← accept (.keyword .else_) then g .statement
  patchJump toEnd

def returnStatement : Compile Unit := do
  if ← accept (.symbol .semicolon) then emitReturnNil
  else
    expression bound g
    expect (.symbol .semicolon) "';' after return value"
    emit .ret

def statement : Compile Unit := do
  match ← current with
  | .keyword .if_ =>
    advance
    ifStatement bound g
  | .keyword .while_ =>
    advance
    whileStatement bound g
  | .keyword .for_ =>
    advance
    forStatement bound g
  | .keyword .return_ =>
    advance
    returnStatement bound g
  | .keyword .break_ =>
    advance
    breakStatement
  | .keyword .continue_ =>
    advance
    continueStatement
  | .symbol .leftBrace =>
    advance
    beginBlock
    block bound g
    endBlock
  | _ => expressionStatement bound g

/-- A declaration or a statement. Recovery from a mistake ends with it. -/
def declaration : Compile Unit := do
  if (← current).isType then
    advance
    typedDeclaration bound g
  else if ← accept (.keyword .inherit) then mistake .inheritOutsideObject
  else statement bound g
  resume bound

end Mudscript.Compile
