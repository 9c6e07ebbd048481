import Mudscript.Scope
import Mudscript.Text.Layout
import Mudscript.Token.Scan

/-!
# Compile errors

What can be wrong with a source text, and how it is reported. A report names the line and, unless
the text could not even be cut into tokens there, the token it was found at.
-/

namespace Mudscript

/-- What is wrong. `expected` names what should have come. -/
inductive Mistake
  | lexical (fault : LexicalFault)
  | scope (fault : ScopeFault)
  | code (fault : DraftFault)
  | expected (what : String)
  | invalidAssignmentTarget
  | tooManyArguments
  | tooManyParameters
  | thisOutsideObject
  | superOutsideObject
  | breakOutsideLoop
  | continueOutsideLoop
  | inheritOutsideObject
  | inheritAfterMembers
  | returnFromObject
  deriving DecidableEq

def Mistake.message : Mistake → String
  | .lexical fault => fault.message
  | .scope fault => fault.message
  | .code fault => fault.message
  | .expected what => "Expect " ++ what ++ "."
  | .invalidAssignmentTarget => "Invalid assignment target."
  | .tooManyArguments => "Can't have more than 255 arguments."
  | .tooManyParameters => "Can't have more than 255 parameters."
  | .thisOutsideObject => "Can't use 'this' outside of an object."
  | .superOutsideObject => "Can't use '::' outside of an object."
  | .breakOutsideLoop => "Can't use 'break' outside of a loop."
  | .continueOutsideLoop => "Can't use 'continue' outside of a loop."
  | .inheritOutsideObject => "'inherit' is only allowed at the top of an object."
  | .inheritAfterMembers => "'inherit' must come before any field or method."
  | .returnFromObject => "Can't return from an object body."

inductive Place
  | nowhere
  | token (lexeme : String)
  | endOfText
  deriving DecidableEq

def Place.ofToken (t : Token) : Place :=
  match t.kind with
  | .endOfText => .endOfText
  | _ => .token t.lexeme

def Place.text : Place → String
  | .nowhere => ""
  | .token lexeme => " at '" ++ lexeme ++ "'"
  | .endOfText => " at end"

structure CompileError where
  line : Nat
  place : Place
  mistake : Mistake
  deriving DecidableEq

def CompileError.render (e : CompileError) : String :=
  "[line " ++ toString e.line ++ "] Error" ++ e.place.text ++ ": " ++ e.mistake.message

abbrev CompileErrors := Array CompileError

def CompileErrors.render (errors : CompileErrors) : String :=
  Text.joinLines (errors.toList.map CompileError.render)

def CompileErrors.mentions (errors : CompileErrors) (text : String) : Bool :=
  errors.any fun e => (e.mistake.message.splitOn text).length ≠ 1 || text.isEmpty

end Mudscript
