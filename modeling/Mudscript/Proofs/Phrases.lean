import Mudscript.Proofs.Edits

/-!
# The language

The trees of the language and the grammar that says which tokens they are written with. `Derives` is
that grammar, with a rule for each production: it relates a tree to every string of tokens that stands
for it. Parentheses leave no trace in a tree, so one tree has many renderings, and the level of an
expression says which renderings may stand next to an operator without being torn apart by it.

A bare name and a read of a property have a level of their own below the other operands, because the
tokens that may follow them decide what they mean: an opening parenthesis makes them a call and an
assignment operator makes them a target. A call of a name is therefore a tree of its own, and not the
call of a tree that happens to be a name.
-/

namespace Mudscript

inductive Literal
  | number (value : Number)
  | text (value : String)
  | nil | true_ | false_

namespace Literal

def token : Literal → TokenKind
  | .number n => .number n
  | .text s => .text s
  | .nil => .keyword .nil
  | .true_ => .keyword .true_
  | .false_ => .keyword .false_

end Literal

inductive UnaryOperator
  | negate | not

namespace UnaryOperator

def symbol : UnaryOperator → Symbol
  | .negate => .minus
  | .not => .bang

def operation : UnaryOperator → Instruction
  | .negate => .negate
  | .not => .not

end UnaryOperator

/-- The operators that group to the left. -/
inductive BinaryOperator
  | add | subtract | multiply | divide | modulo
  | equal | notEqual | greater | greaterEqual | less | lessEqual

namespace BinaryOperator

def symbol : BinaryOperator → Symbol
  | .add => .plus
  | .subtract => .minus
  | .multiply => .star
  | .divide => .slash
  | .modulo => .percent
  | .equal => .equalEqual
  | .notEqual => .bangEqual
  | .greater => .greater
  | .greaterEqual => .greaterEqual
  | .less => .less
  | .lessEqual => .lessEqual

def operation : BinaryOperator → Instruction
  | .add => .add
  | .subtract => .subtract
  | .multiply => .multiply
  | .divide => .divide
  | .modulo => .modulo
  | .equal => .equal
  | .notEqual => .notEqual
  | .greater => .greater
  | .greaterEqual => .greaterEqual
  | .less => .less
  | .lessEqual => .lessEqual

def precedence : BinaryOperator → Precedence
  | .add | .subtract => .term
  | .multiply | .divide | .modulo => .factor
  | .equal | .notEqual => .equality
  | .greater | .greaterEqual | .less | .lessEqual => .comparison

theorem binaryOperation?_symbol (op : BinaryOperator) :
    Compile.binaryOperation? (.symbol op.symbol) = some op.operation := by
  cases op <;> rfl

theorem precedence_symbol (op : BinaryOperator) : (TokenKind.symbol op.symbol).precedence = op.precedence := by
  cases op <;> rfl

theorem eq_symbol_of_binaryOperation? {token : TokenKind} {i : Instruction}
    (h : Compile.binaryOperation? token = some i) :
    ∃ op : BinaryOperator, token = .symbol op.symbol ∧ i = op.operation := by
  unfold Compile.binaryOperation? at h
  split at h <;> cases h
  · exact ⟨.add, rfl, rfl⟩
  · exact ⟨.subtract, rfl, rfl⟩
  · exact ⟨.multiply, rfl, rfl⟩
  · exact ⟨.divide, rfl, rfl⟩
  · exact ⟨.modulo, rfl, rfl⟩
  · exact ⟨.equal, rfl, rfl⟩
  · exact ⟨.notEqual, rfl, rfl⟩
  · exact ⟨.greater, rfl, rfl⟩
  · exact ⟨.greaterEqual, rfl, rfl⟩
  · exact ⟨.less, rfl, rfl⟩
  · exact ⟨.lessEqual, rfl, rfl⟩

end BinaryOperator

/-- `=` and the assignments that combine the old value with the new one. -/
inductive AssignmentOperator
  | set | add | subtract | multiply | divide

namespace AssignmentOperator

def symbol : AssignmentOperator → Symbol
  | .set => .equal
  | .add => .plusEqual
  | .subtract => .minusEqual
  | .multiply => .starEqual
  | .divide => .slashEqual

/-- How the old value and the new one are combined. -/
def combines? : AssignmentOperator → Option BinaryOperator
  | .set => none
  | .add => some .add
  | .subtract => some .subtract
  | .multiply => some .multiply
  | .divide => some .divide

theorem isAssignment_symbol (op : AssignmentOperator) : (TokenKind.symbol op.symbol).isAssignment = true := by
  cases op <;> rfl

theorem compoundOperation?_symbol (op : AssignmentOperator) :
    Compile.compoundOperation? (.symbol op.symbol) = op.combines?.map BinaryOperator.operation := by
  cases op <;> rfl

theorem eq_symbol_of_isAssignment {token : TokenKind} (h : token.isAssignment = true) :
    ∃ op : AssignmentOperator, token = .symbol op.symbol := by
  unfold TokenKind.isAssignment at h
  split at h
  · exact ⟨.set, rfl⟩
  · exact ⟨.add, rfl⟩
  · exact ⟨.subtract, rfl⟩
  · exact ⟨.multiply, rfl⟩
  · exact ⟨.divide, rfl⟩
  · cases h

end AssignmentOperator

/-! ### Trees -/

mutual

inductive Expression
  | literal (value : Literal)
  | name (x : String)
  | assign (x : String) (op : AssignmentOperator) (value : Expression)
  | unary (op : UnaryOperator) (operand : Expression)
  | binary (op : BinaryOperator) (left right : Expression)
  | and (left right : Expression)
  | or (left right : Expression)
  | call (callee : Expression) (arguments : Arguments)
  /-- A name directly in front of arguments. -/
  | callName (x : String) (arguments : Arguments)
  | property (receiver : Expression) (x : String)
  | assignProperty (receiver : Expression) (x : String) (op : AssignmentOperator) (value : Expression)
  | invoke (receiver : Expression) (x : String) (arguments : Arguments)
  | this
  | superCall (x : String) (arguments : Arguments)
  | lambda (parameters : List String) (body : Declarations)

inductive Arguments
  | nil
  | cons (first : Expression) (rest : Arguments)

inductive Clause
  | none
  | some (e : Expression)

inductive Declarators
  | nil
  | cons (x : String) (value : Clause) (rest : Declarators)

inductive Statement
  | expression (e : Expression)
  | block (body : Declarations)
  | ifThen (condition : Expression) (consequent : Statement)
  | ifElse (condition : Expression) (consequent alternative : Statement)
  | while_ (condition : Expression) (body : Statement)
  /-- The first clause declares variables, evaluates an expression or is empty. -/
  | for_ (first : Declarations) (condition step : Clause) (body : Statement)
  | return_ (value : Clause)
  | break_
  | continue_

inductive Declaration
  | function (x : String) (parameters : List String) (body : Declarations)
  | variables (vs : Declarators)
  | statement (s : Statement)

inductive Declarations
  | nil
  | cons (first : Declaration) (rest : Declarations)

end

namespace Arguments

def length : Arguments → Nat
  | .nil => 0
  | .cons _ rest => rest.length + 1

end Arguments

namespace Statement

/-- Whether an `else` behind the statement would belong to a conditional at its end. -/
def endsOpen : Statement → Bool
  | .ifThen _ _ => true
  | .ifElse _ _ alternative => alternative.endsOpen
  | .while_ _ body => body.endsOpen
  | .for_ _ _ _ body => body.endsOpen
  | _ => false

end Statement

/-! ### The grammar -/

instance (x : String) : Decidable (IsName x) := inferInstanceAs (Decidable (_ ∧ _))

inductive Form
  /-- An expression whose operators bind at least as tightly as the level says. -/
  | expression (level : Precedence)
  | arguments
  /-- At least one argument. -/
  | argumentList
  | parameters
  /-- At least one parameter. -/
  | parameterList
  /-- The parameters of a function and its body. -/
  | function
  /-- An expression or nothing. -/
  | clause
  | initializer
  | variables
  | statement
  /-- The first clause of a `for`. -/
  | forInitializer
  | declaration
  | declarations

abbrev Form.Tree : Form → Type
  | .expression _ => Expression
  | .arguments | .argumentList => Arguments
  | .parameters | .parameterList => List String
  | .function => List String × Declarations
  | .clause | .initializer => Clause
  | .variables => Declarators
  | .statement => Statement
  | .declaration => Declaration
  | .forInitializer | .declarations => Declarations

/-- The type in front of a parameter, which may be left out. -/
def optionalType : Option TypeName → List TokenKind
  | none => []
  | some type => [.type type]

/-- The tokens that stand for a tree. With `nearest`, an `else` belongs to the nearest conditional it
can belong to; without it, to any. -/
inductive Derives (nearest : Bool) : (f : Form) → f.Tree → List TokenKind → Prop
  -- Operands
  | literal (l : Literal) : Derives nearest (.expression .primary) (.literal l) [l.token]
  | group {e : Expression} {ts} : Derives nearest (.expression .assignment) e ts →
      Derives nearest (.expression .primary) e (.symbol .leftParen :: (ts ++ [.symbol .rightParen]))
  | name {x} : IsName x → Derives nearest (.expression .call) (.name x) [.name x]
  | callName {x} {a : Arguments} {ts} : IsName x → Derives nearest .arguments a ts →
      Derives nearest (.expression .primary) (.callName x a)
        (.name x :: .symbol .leftParen :: (ts ++ [.symbol .rightParen]))
  | this : Derives nearest (.expression .primary) .this [.keyword .this]
  | superCall {x} {a : Arguments} {ts} : IsName x → Derives nearest .arguments a ts →
      Derives nearest (.expression .primary) (.superCall x a)
        (.symbol .doubleColon :: .name x :: .symbol .leftParen :: (ts ++ [.symbol .rightParen]))
  | lambda {ps : List String} {body : Declarations} {ts} : Derives nearest .function (ps, body) ts →
      Derives nearest (.expression .primary) (.lambda ps body) (.keyword .function :: ts)
  -- What follows an operand
  | call {e : Expression} {a : Arguments} {ts us} :
      Derives nearest (.expression .primary) e ts → Derives nearest .arguments a us →
      Derives nearest (.expression .primary) (.call e a) (ts ++ .symbol .leftParen :: (us ++ [.symbol .rightParen]))
  | property {e : Expression} {x ts} : IsName x → Derives nearest (.expression .call) e ts →
      Derives nearest (.expression .call) (.property e x) (ts ++ [.symbol .arrow, .name x])
  | invoke {e : Expression} {x} {a : Arguments} {ts us} :
      IsName x → Derives nearest (.expression .call) e ts → Derives nearest .arguments a us →
      Derives nearest (.expression .primary) (.invoke e x a)
        (ts ++ .symbol .arrow :: .name x :: .symbol .leftParen :: (us ++ [.symbol .rightParen]))
  -- Operators
  | tighter {p} {e : Expression} {ts} :
      Derives nearest (.expression p.tighter) e ts → Derives nearest (.expression p) e ts
  | unary {op} {e : Expression} {ts} : Derives nearest (.expression .unary) e ts →
      Derives nearest (.expression .unary) (.unary op e) (.symbol op.symbol :: ts)
  | binary {op} {l r : Expression} {ts us} : Derives nearest (.expression op.precedence) l ts →
      Derives nearest (.expression op.precedence.tighter) r us →
      Derives nearest (.expression op.precedence) (.binary op l r) (ts ++ .symbol op.symbol :: us)
  | and {l r : Expression} {ts us} :
      Derives nearest (.expression .equality) l ts → Derives nearest (.expression .and) r us →
      Derives nearest (.expression .and) (.and l r) (ts ++ .symbol .and :: us)
  | or {l r : Expression} {ts us} : Derives nearest (.expression .and) l ts → Derives nearest (.expression .or) r us →
      Derives nearest (.expression .or) (.or l r) (ts ++ .symbol .or :: us)
  | assign {x op} {e : Expression} {ts} : IsName x → Derives nearest (.expression .assignment) e ts →
      Derives nearest (.expression .assignment) (.assign x op e) (.name x :: .symbol op.symbol :: ts)
  | assignProperty {e v : Expression} {x op} {ts us} : IsName x → Derives nearest (.expression .call) e ts →
      Derives nearest (.expression .assignment) v us →
      Derives nearest (.expression .assignment) (.assignProperty e x op v)
        (ts ++ .symbol .arrow :: .name x :: .symbol op.symbol :: us)
  -- Arguments and parameters
  | noArguments : Derives nearest .arguments .nil []
  | someArguments {a : Arguments} {ts} : Derives nearest .argumentList a ts → Derives nearest .arguments a ts
  | lastArgument {e : Expression} {ts} : Derives nearest (.expression .assignment) e ts →
      Derives nearest .argumentList (.cons e .nil) ts
  | argument {e : Expression} {a : Arguments} {ts us} :
      Derives nearest (.expression .assignment) e ts → Derives nearest .argumentList a us →
      Derives nearest .argumentList (.cons e a) (ts ++ .symbol .comma :: us)
  | noParameters : Derives nearest .parameters [] []
  | someParameters {ps : List String} {ts} : Derives nearest .parameterList ps ts → Derives nearest .parameters ps ts
  | lastParameter {x} {type : Option TypeName} :
      IsName x → Derives nearest .parameterList [x] (optionalType type ++ [.name x])
  | parameter {x} {type : Option TypeName} {ps : List String} {ts} : IsName x → Derives nearest .parameterList ps ts →
      Derives nearest .parameterList (x :: ps) (optionalType type ++ .name x :: .symbol .comma :: ts)
  | function {ps : List String} {body : Declarations} {ts us} :
      Derives nearest .parameters ps ts → Derives nearest .declarations body us → Derives nearest .function (ps, body)
        (.symbol .leftParen :: (ts ++ .symbol .rightParen :: .symbol .leftBrace :: (us ++ [.symbol .rightBrace])))
  -- Statements
  | noClause : Derives nearest .clause .none []
  | someClause {e : Expression} {ts} :
      Derives nearest (.expression .assignment) e ts → Derives nearest .clause (.some e) ts
  | expression {e : Expression} {ts} : Derives nearest (.expression .assignment) e ts →
      Derives nearest .statement (.expression e) (ts ++ [.symbol .semicolon])
  | block {body : Declarations} {ts} : Derives nearest .declarations body ts → Derives nearest .statement (.block body)
        (.symbol .leftBrace :: (ts ++ [.symbol .rightBrace]))
  | ifThen {e : Expression} {s : Statement} {ts us} :
      Derives nearest (.expression .assignment) e ts → Derives nearest .statement s us →
      Derives nearest .statement (.ifThen e s)
        (.keyword .if_ :: .symbol .leftParen :: (ts ++ .symbol .rightParen :: us))
  | ifElse {e : Expression} {s a : Statement} {ts us vs} :
      Derives nearest (.expression .assignment) e ts → Derives nearest .statement s us →
      (nearest = true → s.endsOpen = false) → Derives nearest .statement a vs →
      Derives nearest .statement (.ifElse e s a) (.keyword .if_ :: .symbol .leftParen ::
          (ts ++ .symbol .rightParen :: (us ++ .keyword .else_ :: vs)))
  | while_ {e : Expression} {s : Statement} {ts us} :
      Derives nearest (.expression .assignment) e ts → Derives nearest .statement s us →
      Derives nearest .statement (.while_ e s)
        (.keyword .while_ :: .symbol .leftParen :: (ts ++ .symbol .rightParen :: us))
  | noFirst : Derives nearest .forInitializer .nil [.symbol .semicolon]
  | firstVariables {type : TypeName} {vs : Declarators} {ts} : Derives nearest .variables vs ts →
      Derives nearest .forInitializer (.cons (.variables vs) .nil) (.type type :: (ts ++ [.symbol .semicolon]))
  | firstExpression {e : Expression} {ts} : Derives nearest (.expression .assignment) e ts →
      Derives nearest .forInitializer (.cons (.statement (.expression e)) .nil) (ts ++ [.symbol .semicolon])
  | for_ {first : Declarations} {condition step : Clause} {s : Statement} {ts us vs ws} :
      Derives nearest .forInitializer first ts → Derives nearest .clause condition us →
      Derives nearest .clause step vs → Derives nearest .statement s ws →
      Derives nearest .statement (.for_ first condition step s) (.keyword .for_ :: .symbol .leftParen ::
          (ts ++ (us ++ .symbol .semicolon :: (vs ++ .symbol .rightParen :: ws))))
  | return_ {value : Clause} {ts} : Derives nearest .clause value ts → Derives nearest .statement (.return_ value)
        (.keyword .return_ :: (ts ++ [.symbol .semicolon]))
  | break_ : Derives nearest .statement .break_ [.keyword .break_, .symbol .semicolon]
  | continue_ : Derives nearest .statement .continue_ [.keyword .continue_, .symbol .semicolon]
  -- Declarations
  | noInitializer : Derives nearest .initializer .none []
  | someInitializer {e : Expression} {ts} : Derives nearest (.expression .assignment) e ts →
      Derives nearest .initializer (.some e) (.symbol .equal :: ts)
  | lastVariable {x} {value : Clause} {ts} : IsName x → Derives nearest .initializer value ts →
      Derives nearest .variables (.cons x value .nil) (.name x :: ts)
  | moreVariables {x} {value : Clause} {rest : Declarators} {ts us} :
      IsName x → Derives nearest .initializer value ts → Derives nearest .variables rest us →
      Derives nearest .variables (.cons x value rest) (.name x :: (ts ++ .symbol .comma :: us))
  | functionDeclaration {type : TypeName} {x} {ps : List String} {body : Declarations} {ts} :
      IsName x → Derives nearest .function (ps, body) ts →
      Derives nearest .declaration (.function x ps body) (.type type :: .name x :: ts)
  | variableDeclaration {type : TypeName} {vs : Declarators} {ts} : Derives nearest .variables vs ts →
      Derives nearest .declaration (.variables vs) (.type type :: (ts ++ [.symbol .semicolon]))
  | statement {s : Statement} {ts} : Derives nearest .statement s ts → Derives nearest .declaration (.statement s) ts
  | noDeclarations : Derives nearest .declarations .nil []
  | declaration {d : Declaration} {ds : Declarations} {ts us} :
      Derives nearest .declaration d ts → Derives nearest .declarations ds us →
      Derives nearest .declarations (.cons d ds) (ts ++ us)

end Mudscript
