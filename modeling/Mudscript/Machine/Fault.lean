import Mudscript.Library

/-!
# Faults

What can go wrong while a program runs, and the backtrace that tells where.
-/

namespace Mudscript

inductive Fault
  | cannotAdd (left right : ValueType)
  | cannotCompare (left right : ValueType)
  | operandsNotNumbers
  | operandNotNumber
  | divisionByZero
  | undefinedVariable (name : String)
  | undefinedProperty (object property : String)
  | notAnObject (property : String) (type : ValueType)
  | notCallable (type : ValueType)
  | wrongArity (expected got : Nat)
  | tooManyArguments (limit got : Nat)
  | stackOverflow
  | alreadyInherits (object parent : String)
  | inheritNonObject (type : ValueType)
  | noParent (object : String)
  | superOfNonObject (type : ValueType)
  | memberOfNonObject (type : ValueType)
  | methodNotFunction (name : String) (type : ValueType)
  | pathNotText (type : ValueType)
  | programReturned (type : ValueType)
  | closureOfNonFunction
  | noProgram
  | native (name message : String)
  | load (error : LoadError)
  | unknownOperation (code : UInt8)

def Fault.message : Fault → String
  | .cannotAdd left right => "Cannot add " ++ left.name ++ " and " ++ right.name ++ "."
  | .cannotCompare left right => "Cannot compare " ++ left.name ++ " and " ++ right.name ++ "."
  | .operandsNotNumbers => "Operands must be numbers."
  | .operandNotNumber => "Operand must be a number."
  | .divisionByZero => "Division by zero."
  | .undefinedVariable name => "Undefined variable '" ++ name ++ "'."
  | .undefinedProperty object property =>
    "Undefined property '" ++ property ++ "' on object '" ++ object ++ "'."
  | .notAnObject property type =>
    "Only objects have properties; can't access '" ++ property ++ "' on " ++ type.name ++ "."
  | .notCallable type => "Can't call a value of type " ++ type.name ++ "."
  | .wrongArity expected got =>
    "Expected " ++ toString expected ++ " arguments but got " ++ toString got ++ "."
  | .tooManyArguments limit got =>
    "Expected at most " ++ toString limit ++ " arguments but got " ++ toString got ++ "."
  | .stackOverflow => "Stack overflow."
  | .alreadyInherits object parent =>
    "Object '" ++ object ++ "' already inherits from '" ++ parent ++ "'."
  | .inheritNonObject type => "Can only inherit from an object, not " ++ type.name ++ "."
  | .noParent object => "Object '" ++ object ++ "' has no parent."
  | .superOfNonObject type => "'::' needs an object receiver, not " ++ type.name ++ "."
  | .memberOfNonObject type => "Members can only be added to an object, not " ++ type.name ++ "."
  | .methodNotFunction name type =>
    "Method '" ++ name ++ "' must be a function, not " ++ type.name ++ "."
  | .pathNotText type => "Object path must be a string, not " ++ type.name ++ "."
  | .programReturned type => "Object program returned " ++ type.name ++ "."
  | .closureOfNonFunction => "CLOSURE operand is not a function."
  | .noProgram => "No object program to run."
  | .native name message => name ++ ": " ++ message
  | .load error => error.message
  | .unknownOperation code => "Unknown opcode " ++ toString code ++ "."

/-- A call under way: the line it has come to and the routine it runs. -/
structure TraceLine where
  line : Nat
  name : String
  deriving DecidableEq

def TraceLine.render (t : TraceLine) : String := "[line " ++ toString t.line ++ "] in " ++ t.name

abbrev Backtrace := List TraceLine

def Backtrace.render (trace : Backtrace) : String := Text.joinLines (trace.map TraceLine.render)

end Mudscript
