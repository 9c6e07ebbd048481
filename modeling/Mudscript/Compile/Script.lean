import Mudscript.Compile.Statement

/-!
# Scripts and object units

A script is a list of declarations and statements, and runs from top to bottom. An object unit
describes one object: the paths it inherits from, then its fields and methods. It compiles to the
routine that constructs the object in its slot 0 and returns it.
-/

namespace Mudscript

/-- The grammar of constructs nested at most `n` levels deep. -/
def Grammar.upTo : Nat → Grammar
  | 0, _ => Compile.exhaust
  | n + 1, .expression minimum => Compile.precedence (n + 1) (upTo n) minimum
  | n + 1, .statement => Compile.statement (n + 1) (upTo n)
  | n + 1, .declaration => Compile.declaration (n + 1) (upTo n)

namespace Compile

variable (bound : Nat) (g : Grammar)

def scriptDeclaration : Compile Bool := do
  if ← accept .endOfText then return false
  declaration bound g
  return true

def script : Compile Unit := do
  repeatUpTo (scriptDeclaration bound g) bound
  emitReturnNil

/-! ### Object units -/

def inheritance : Compile Unit := do
  match ← current with
  | .text path =>
    advance
    emitConstant (.text path)
    emit .compile
    emit .inherit
  | _ => mistakeAhead (.expected "object path after 'inherit'")
  expect (.symbol .semicolon) "';' after inherit path"
  resume bound

def inheritDeclaration : Compile Bool := do
  if ← accept (.keyword .inherit) then
    inheritance bound
    return true
  else return false

def field (name : String) : Compile Unit := do
  initializer bound g
  emit (.field (← nameConstant name))

def anotherField : Compile Bool := do
  if ← accept (.symbol .comma) then
    field bound g (← expectName "field name")
    return true
  else return false

def fields (first : String) : Compile Unit := do
  field bound g first
  repeatUpTo (anotherField bound g) bound
  expect (.symbol .semicolon) "';' after field declaration"

def method (name : String) : Compile Unit := do
  function bound g .method name
  emit (.method (← nameConstant name))

/-- What stands where a field or method should is one wrong token. -/
def misplacedMember : TokenKind → Mistake
  | .keyword .inherit => .inheritAfterMembers
  | .keyword .return_ => .returnFromObject
  | _ => .expected "field or method declaration"

def member : Compile Unit := do
  let ahead ← current
  if ahead.isType then
    advance
    let name ← expectName "field or method name"
    if ← check (.symbol .leftParen) then method bound g name else fields bound g name
  else
    mistakeAhead (misplacedMember ahead)
    advance
  resume bound

def memberDeclaration : Compile Bool := do
  if ← check .endOfText then return false
  member bound g
  return true

def objectUnit (path : String) : Compile Unit := do
  emit (.object (← nameConstant path))
  repeatUpTo (inheritDeclaration bound) bound
  repeatUpTo (memberDeclaration bound g) bound
  emit .ret

def last (source : String) (scope : Scope) (body : Nat → Grammar → Compile Unit) : Compiler :=
  let tokens := Tokens.ofSource source
  let bound := tokens.items.length + 1
  (body bound (.upTo bound) (.start tokens scope)).2

/-- Runs a compilation: the finished routine, or what was wrong. -/
def run (source : String) (scope : Scope) (body : Nat → Grammar → Compile Unit) :
    Except CompileErrors Routine :=
  let c := last source scope body
  if c.errors.isEmpty then .ok c.scopes.current.toRoutine else .error c.errors

end Compile

def compileScript (name source : String) : Except CompileErrors Routine :=
  Compile.run source (.start .script name none) Compile.script

def compileObject (path source : String) : Except CompileErrors Routine :=
  Compile.run source (.start .object path (some path)) fun bound g =>
    Compile.objectUnit bound g path

end Mudscript
