import Mudscript.Compile.Emit

/-!
# Functions

The parts of the grammar that refer to each other do so through a `Grammar`, which compiles the
nonterminals found inside the construct at hand. A construct takes at least one token before it
turns to the grammar, so each level of nesting costs a token: a grammar that supports as many levels
as there are tokens is as good as an unlimited one. The same number bounds every repetition.
-/

namespace Mudscript

inductive Nonterminal
  /-- An expression whose operators bind at least this tightly. -/
  | expression (minimum : Precedence)
  | statement
  | declaration

/-- How the constructs inside another are compiled. -/
abbrev Grammar := Nonterminal → Compile Unit

namespace Compile

def atBlockEnd : Compile Bool := do
  let ahead ← current
  return ahead = .symbol .rightBrace || ahead = .endOfText

def block (bound : Nat) (g : Grammar) : Compile Unit := do
  let declaration : Compile Bool := do
    if ← atBlockEnd then return false
    g .declaration
    return true
  repeatUpTo declaration bound
  expect (.symbol .rightBrace) "'\x7d' after block"

/-- The most parameters a function and the most arguments a call can have. -/
def maxArguments : Nat := 255

def parameter : Compile Bool := do
  if (← scope).arity = maxArguments then mistakeAhead .tooManyParameters
  else modifyScope fun s => { s with arity := s.arity + 1 }
  if (← current).isType then advance
  declare (← expectName "parameter name")
  define
  accept (.symbol .comma)

/-- Parameters and body of a function, from the opening parenthesis on. A closure over the function
is left on the stack. -/
def function (bound : Nat) (g : Grammar) (kind : RoutineKind) (name : String) : Compile Unit := do
  enterFunction kind name
  beginBlock
  expect (.symbol .leftParen) "'(' after function name"
  unless ← check (.symbol .rightParen) do
    repeatUpTo parameter bound
  expect (.symbol .rightParen) "')' after parameters"
  expect (.symbol .leftBrace) "'\x7b' before function body"
  block bound g
  leaveFunction

end Compile

end Mudscript
