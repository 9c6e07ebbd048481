/-!
# JSON

Reading a text in the JSON format. Both halves of the reader are machines that take one thing after
another: the lexer takes characters and the builder takes lexemes. A machine that is stuck refuses
the text, so nesting costs no depth of recursion.

Of a number it is only kept whether it is written as a natural number, and which. A text in which an
escape stands for half of a surrogate pair, without the other half, is well formed but denotes no
characters.
-/

namespace Mudscript

inductive Json
  | null
  | bool (b : Bool)
  | number (natural? : Option Nat)
  | text (s? : Option String)
  | array (items : List Json)
  | object (members : List (Option String × Json))

namespace Json

/-! ### Numbers and texts -/

def isExponent : List Char → Bool
  | [] => true
  | e :: cs =>
    let digits := match cs with
      | '+' :: rest | '-' :: rest => rest
      | rest => rest
    (e = 'e' || e = 'E') && !digits.isEmpty && digits.all Char.isDigit

/-- A fraction and an exponent, each of which may be missing. -/
def isFraction : List Char → Bool
  | '.' :: cs => (cs.head?.any Char.isDigit) && isExponent (cs.dropWhile Char.isDigit)
  | cs => isExponent cs

def naturalOf (digits : List Char) : Nat :=
  digits.foldl (fun n c => 10 * n + (c.toNat - '0'.toNat)) 0

def number? (cs : List Char) : Option Json :=
  let unsigned := match cs with
    | '-' :: rest => rest
    | rest => rest
  let digits := unsigned.takeWhile Char.isDigit
  let leadingZero := digits.head? = some '0' && digits ≠ ['0']
  if digits.isEmpty || leadingZero || !isFraction (unsigned.dropWhile Char.isDigit) then none
  else some (.number (if cs = digits then some (naturalOf digits) else none))

def isHigh (unit : Nat) : Bool := 0xD800 ≤ unit && unit < 0xDC00

def isLow (unit : Nat) : Bool := 0xDC00 ≤ unit && unit < 0xE000

/-- The characters that code points and halves of surrogate pairs denote. -/
def charsOf? : List Nat → Option (List Char)
  | [] => some []
  | [unit] => if isHigh unit || isLow unit then none else some [Char.ofNat unit]
  | unit :: next :: rest =>
    if isHigh unit then
      if isLow next then
        (charsOf? rest).map
          (Char.ofNat (0x10000 + 0x400 * (unit - 0xD800) + (next - 0xDC00)) :: ·)
      else none
    else if isLow unit then none
    else (charsOf? (next :: rest)).map (Char.ofNat unit :: ·)

def escape? : Char → Option Nat
  | '"' => some 0x22
  | '\\' => some 0x5C
  | '/' => some 0x2F
  | 'b' => some 0x08
  | 'f' => some 0x0C
  | 'n' => some 0x0A
  | 'r' => some 0x0D
  | 't' => some 0x09
  | _ => none

def hexDigit? (c : Char) : Option Nat :=
  if c.isDigit then some (c.toNat - '0'.toNat)
  else if 'a' ≤ c ∧ c ≤ 'f' then some (c.toNat - 'a'.toNat + 10)
  else if 'A' ≤ c ∧ c ≤ 'F' then some (c.toNat - 'A'.toNat + 10)
  else none

/-! ### Lexemes -/

inductive Lexeme
  | leaf (v : Json)
  | openArray | closeArray | openObject | closeObject | colon | comma

/-- What the lexer is in the middle of. Characters and units are kept last first. -/
inductive Mode
  | between
  /-- A number or a word. -/
  | bare (cs : List Char)
  | quoted (units : List Nat)
  | escaped (units : List Nat)
  /-- Behind so many digits of an escape, which have a value. -/
  | coded (digits value : Nat) (units : List Nat)

structure Lexer where
  mode : Mode := .between
  done : List Lexeme := []

def isBlank (c : Char) : Bool := c = ' ' || c = '\t' || c = '\n' || c = '\r'

def isBare (c : Char) : Bool := c.isAlphanum || c = '-' || c = '+' || c = '.'

def bare? (cs : List Char) : Option Json :=
  match String.ofList cs with
  | "null" => some .null
  | "true" => some (.bool true)
  | "false" => some (.bool false)
  | _ => number? cs

def punctuation? : Char → Option Lexeme
  | '[' => some .openArray
  | ']' => some .closeArray
  | '\x7b' => some .openObject
  | '\x7d' => some .closeObject
  | ':' => some .colon
  | ',' => some .comma
  | _ => none

namespace Lexer

def start (done : List Lexeme) (c : Char) : Option Lexer :=
  if isBlank c then some { done }
  else if c = '"' then some { mode := .quoted [], done }
  else if isBare c then some { mode := .bare [c], done }
  else (punctuation? c).map fun l => { done := l :: done }

def step (lexer : Lexer) (c : Char) : Option Lexer :=
  let done := lexer.done
  match lexer.mode with
  | .between => start done c
  | .bare cs =>
    if isBare c then some { mode := .bare (c :: cs), done }
    else (bare? cs.reverse).bind fun v => start (.leaf v :: done) c
  | .quoted units =>
    if c = '"' then
      some { done := .leaf (.text ((charsOf? units.reverse).map String.ofList)) :: done }
    else if c = '\\' then some { mode := .escaped units, done }
    else if c.toNat < 0x20 then none
    else some { mode := .quoted (c.toNat :: units), done }
  | .escaped units =>
    if c = 'u' then some { mode := .coded 0 0 units, done }
    else (escape? c).map fun unit => { mode := .quoted (unit :: units), done }
  | .coded digits value units =>
    (hexDigit? c).map fun d =>
      let value := 16 * value + d
      if digits = 3 then { mode := .quoted (value :: units), done }
      else { mode := .coded (digits + 1) value units, done }

end Lexer

/-- The lexemes of a text. A blank at its end completes the last of them. -/
def lexemes? (s : String) : Option (List Lexeme) :=
  match (s.toList ++ [' ']).foldlM Lexer.step {} with
  | some { mode := .between, done } => some done.reverse
  | _ => none

/-! ### Structure -/

inductive Expected
  | value
  | firstItem
  | key
  | firstKey
  | colon
  | separator

/-- An array or object that is not closed yet, with its contents last first. An object has a key,
whose value is being read. -/
inductive Unclosed
  | array (items : List Json)
  | object (members : List (Option String × Json)) (key : Option String)

inductive Builder
  | reading (expected : Expected) (outer : List Unclosed)
  | done (v : Json)

namespace Builder

def complete (v : Json) : List Unclosed → Builder
  | [] => .done v
  | .array items :: outer => .reading .separator (.array (v :: items) :: outer)
  | .object members key :: outer => .reading .separator (.object ((key, v) :: members) key :: outer)

def beginValue (outer : List Unclosed) : Lexeme → Option Builder
  | .leaf v => some (complete v outer)
  | .openArray => some (.reading .firstItem (.array [] :: outer))
  | .openObject => some (.reading .firstKey (.object [] none :: outer))
  | _ => none

def beginMember : List Unclosed → Lexeme → Option Builder
  | .object members _ :: outer, .leaf (.text key) =>
    some (.reading .colon (.object members key :: outer))
  | _, _ => none

def close : List Unclosed → Lexeme → Option Builder
  | .array items :: outer, .closeArray => some (complete (.array items.reverse) outer)
  | .object members _ :: outer, .closeObject => some (complete (.object members.reverse) outer)
  | _, _ => none

def step : Builder → Lexeme → Option Builder
  | .done _, _ => none
  | .reading expected outer, l =>
    match expected, l with
    | .value, l => beginValue outer l
    | .firstItem, .closeArray => close outer l
    | .firstItem, l => beginValue outer l
    | .key, l => beginMember outer l
    | .firstKey, .closeObject => close outer l
    | .firstKey, l => beginMember outer l
    | .colon, .colon => some (.reading .value outer)
    | .colon, _ => none
    | .separator, .comma =>
      match outer with
      | .array _ :: _ => some (.reading .value outer)
      | .object .. :: _ => some (.reading .key outer)
      | [] => none
    | .separator, l => close outer l

end Builder

def parse? (s : String) : Option Json := do
  match (← lexemes? s).foldlM Builder.step (.reading .value []) with
  | some (.done v) => some v
  | _ => none

end Json

end Mudscript
