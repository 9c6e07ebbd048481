import Mudscript.Number.Decimal

/-!
# Tokens

A token is a piece of source text with its meaning and the line it starts on. Names of types are
ordinary keywords that introduce a declaration: they are accepted and nothing checks them.
-/

namespace Mudscript

inductive TypeName
  | var | int | float | string | bool | object | mixed | void
  deriving DecidableEq, Repr

namespace TypeName

def all : List TypeName := [.var, .int, .float, .string, .bool, .object, .mixed, .void]

def spelling : TypeName → String
  | .var => "var"
  | .int => "int"
  | .float => "float"
  | .string => "string"
  | .bool => "bool"
  | .object => "object"
  | .mixed => "mixed"
  | .void => "void"

end TypeName

inductive Keyword
  | inherit | if_ | else_ | while_ | for_ | return_ | break_ | continue_ | function | this | nil
  | true_ | false_
  deriving DecidableEq, Repr

namespace Keyword

def all : List Keyword :=
  [.inherit, .if_, .else_, .while_, .for_, .return_, .break_, .continue_, .function, .this, .nil,
    .true_, .false_]

def spelling : Keyword → String
  | .inherit => "inherit"
  | .if_ => "if"
  | .else_ => "else"
  | .while_ => "while"
  | .for_ => "for"
  | .return_ => "return"
  | .break_ => "break"
  | .continue_ => "continue"
  | .function => "function"
  | .this => "this"
  | .nil => "nil"
  | .true_ => "true"
  | .false_ => "false"

end Keyword

inductive Symbol
  | plus | minus | star | slash | percent
  | plusEqual | minusEqual | starEqual | slashEqual | equal
  | equalEqual | bangEqual | less | lessEqual | greater | greaterEqual
  | bang | and | or | arrow | doubleColon
  | leftParen | rightParen | leftBrace | rightBrace | comma | semicolon
  deriving DecidableEq, Repr

namespace Symbol

def spelling : Symbol → String
  | .plus => "+"
  | .minus => "-"
  | .star => "*"
  | .slash => "/"
  | .percent => "%"
  | .plusEqual => "+="
  | .minusEqual => "-="
  | .starEqual => "*="
  | .slashEqual => "/="
  | .equal => "="
  | .equalEqual => "=="
  | .bangEqual => "!="
  | .less => "<"
  | .lessEqual => "<="
  | .greater => ">"
  | .greaterEqual => ">="
  | .bang => "!"
  | .and => "&&"
  | .or => "||"
  | .arrow => "->"
  | .doubleColon => "::"
  | .leftParen => "("
  | .rightParen => ")"
  | .leftBrace => "\x7b"
  | .rightBrace => "\x7d"
  | .comma => ","
  | .semicolon => ";"

def single? : Char → Option Symbol
  | '(' => some .leftParen
  | ')' => some .rightParen
  | '{' => some .leftBrace
  | '}' => some .rightBrace
  | ',' => some .comma
  | ';' => some .semicolon
  | '%' => some .percent
  | '+' => some .plus
  | '*' => some .star
  | '/' => some .slash
  | '-' => some .minus
  | '=' => some .equal
  | '!' => some .bang
  | '<' => some .less
  | '>' => some .greater
  | _ => none

def pair? : Char → Char → Option Symbol
  | '+', '=' => some .plusEqual
  | '-', '=' => some .minusEqual
  | '*', '=' => some .starEqual
  | '/', '=' => some .slashEqual
  | '=', '=' => some .equalEqual
  | '!', '=' => some .bangEqual
  | '<', '=' => some .lessEqual
  | '>', '=' => some .greaterEqual
  | '-', '>' => some .arrow
  | '&', '&' => some .and
  | '|', '|' => some .or
  | ':', ':' => some .doubleColon
  | _, _ => none

end Symbol

inductive Precedence
  | none | assignment | or | and | equality | comparison | term | factor | unary | call | primary
  deriving DecidableEq, Repr

namespace Precedence

def rank : Precedence → Nat
  | .none => 0
  | .assignment => 1
  | .or => 2
  | .and => 3
  | .equality => 4
  | .comparison => 5
  | .term => 6
  | .factor => 7
  | .unary => 8
  | .call => 9
  | .primary => 10

/-- The next tighter level, for the right operand of an operator that groups to the left. -/
def tighter : Precedence → Precedence
  | .none => .assignment
  | .assignment => .or
  | .or => .and
  | .and => .equality
  | .equality => .comparison
  | .comparison => .term
  | .term => .factor
  | .factor => .unary
  | .unary => .call
  | .call => .primary
  | .primary => .primary

instance : LE Precedence := ⟨fun a b => a.rank ≤ b.rank⟩

instance (a b : Precedence) : Decidable (a ≤ b) := inferInstanceAs (Decidable (a.rank ≤ b.rank))

end Precedence

inductive TokenKind
  | number (value : Number)
  | text (value : String)
  | name (identifier : String)
  | keyword (word : Keyword)
  | type (name : TypeName)
  | symbol (symbol : Symbol)
  | endOfText
  deriving DecidableEq

namespace TokenKind

/-- The reserved word or type with this spelling; any other word is a name. -/
def ofWord (word : String) : TokenKind :=
  match Keyword.all.find? (·.spelling = word) with
  | some k => .keyword k
  | none =>
    match TypeName.all.find? (·.spelling = word) with
    | some t => .type t
    | none => .name word

def isType : TokenKind → Bool
  | .type _ => true
  | _ => false

/-- The tokens that begin a statement. After a mistake, compilation resumes at the next one. -/
def startsStatement : TokenKind → Bool
  | .type _ => true
  | .keyword .inherit | .keyword .if_ | .keyword .while_ | .keyword .for_ | .keyword .return_
  | .keyword .break_ | .keyword .continue_ => true
  | _ => false

/-- `=` and the compound assignments. -/
def isAssignment : TokenKind → Bool
  | .symbol .equal | .symbol .plusEqual | .symbol .minusEqual | .symbol .starEqual
  | .symbol .slashEqual => true
  | _ => false

/-- The precedence of a token between two operands; `none` for one that never continues an
expression. -/
def precedence : TokenKind → Precedence
  | .symbol .or => .or
  | .symbol .and => .and
  | .symbol .equalEqual | .symbol .bangEqual => .equality
  | .symbol .less | .symbol .lessEqual | .symbol .greater | .symbol .greaterEqual => .comparison
  | .symbol .plus | .symbol .minus => .term
  | .symbol .star | .symbol .slash | .symbol .percent => .factor
  | .symbol .leftParen | .symbol .arrow => .call
  | _ => .none

/-- The token's meaning as text. A text literal is shown with its value, not with its escapes. -/
def display : TokenKind → String
  | .number n => n.text
  | .text s => "\"" ++ s ++ "\""
  | .name s => s
  | .keyword k => k.spelling
  | .type t => t.spelling
  | .symbol s => s.spelling
  | .endOfText => "EOF"

end TokenKind

structure Token where
  kind : TokenKind
  lexeme : String
  line : Nat
  deriving DecidableEq

def Token.endOfText (line : Nat) : Token := ⟨.endOfText, "", line⟩

end Mudscript
