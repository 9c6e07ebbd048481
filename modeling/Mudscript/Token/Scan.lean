import Mudscript.Text.Letter
import Mudscript.Token

/-!
# From source text to tokens

`Cursor.next` reads one token, or one fault, from the text in front of it. It first leaves out the
gap: blanks, comments to the end of the line, and block comments, which nest. Every reading that is
not the end of the text takes at least one character (`Cursor.next_shorter`), so reading to the end
terminates, and reading goes on after a fault behind the text that caused it.
-/

namespace Mudscript

inductive LexicalFault
  | unexpectedChar (c : Char)
  | unterminatedString
  | unterminatedComment
  | invalidEscape (c : Char)
  deriving DecidableEq

def LexicalFault.message : LexicalFault → String
  | .unexpectedChar c => "Unexpected character '" ++ c.toString ++ "'."
  | .unterminatedString => "Unterminated string."
  | .unterminatedComment => "Unterminated comment."
  | .invalidEscape c => "Invalid escape sequence '\\" ++ c.toString ++ "'."

structure LexicalError where
  fault : LexicalFault
  line : Nat
  deriving DecidableEq

abbrev Lexed := Except LexicalError Token

/-- A place in a source text: the characters still ahead and the current line. -/
structure Cursor where
  ahead : List Char
  line : Nat

namespace Cursor

def start (source : String) : Cursor := ⟨source.toList, 1⟩

/-! ### Gaps -/

/-- What kind of gap text is being left out. A block comment knows how many are open, in 32 bits, and
the line on which the outermost one began. -/
inductive Gap
  | blank
  | lineComment
  | blockComment (depth : Int32) (openedOn : Nat)

/-- A block comment goes on while the count of the open ones is positive. -/
def Gap.block (depth : Int32) (openedOn : Nat) : Gap :=
  if 0 < depth then .blockComment depth openedOn else .blank

/-- The cursor behind a gap, and the line of a block comment that was never closed. -/
structure AfterGap where
  cursor : Cursor
  unclosed : Option Nat

/-- Leaves out gap text. Inside a block comment two characters at a time open or close a level. -/
def skipGap : Gap → Nat → List Char → AfterGap
  | .blank, line, [] => ⟨⟨[], line⟩, none⟩
  | .lineComment, line, [] => ⟨⟨[], line⟩, none⟩
  | .blockComment _ openedOn, line, [] => ⟨⟨[], line⟩, some openedOn⟩
  | .blank, line, c :: rest =>
    if c = ' ' || c = '\t' || c = '\r' then skipGap .blank line rest
    else if c = '\n' then skipGap .blank (line + 1) rest
    else if c = '/' then
      match rest with
      | '/' :: rest => skipGap .lineComment line rest
      | '*' :: rest => skipGap (.block 1 line) line rest
      | _ => ⟨⟨c :: rest, line⟩, none⟩
    else ⟨⟨c :: rest, line⟩, none⟩
  | .lineComment, line, c :: rest =>
    if c = '\n' then skipGap .blank (line + 1) rest else skipGap .lineComment line rest
  | .blockComment depth openedOn, line, '*' :: '/' :: rest =>
    skipGap (.block (depth - 1) openedOn) line rest
  | .blockComment depth openedOn, line, '/' :: '*' :: rest =>
    skipGap (.block (depth + 1) openedOn) line rest
  | .blockComment depth openedOn, line, c :: rest =>
    skipGap (.blockComment depth openedOn) (if c = '\n' then line + 1 else line) rest

/-! ### Lexemes -/

def escape? : Char → Option Char
  | 'n' => some '\n'
  | 't' => some '\t'
  | 'r' => some '\r'
  | '\\' => some '\\'
  | '"' => some '"'
  | _ => none

/-- How the text behind an opening quote ends. `value` and `lexeme` are in reverse. -/
inductive Quotation
  | closed (value lexeme : List Char) (rest : List Char)
  | unterminated (rest : List Char)
  | invalidEscape (c : Char) (rest : List Char)

/-- Reads a text literal behind its opening quote. It must close on the line it started on. A
character behind a backslash that is no escape is used up with the fault. -/
def quotation (value lexeme : List Char) : List Char → Quotation
  | [] => .unterminated []
  | '"' :: rest => .closed value ('"' :: lexeme) rest
  | ['\\'] => .unterminated []
  | '\\' :: c :: rest =>
    match escape? c with
    | some meant => quotation (meant :: value) (c :: '\\' :: lexeme) rest
    | none => .invalidEscape c rest
  | c :: rest =>
    if c = '\n' then .unterminated (c :: rest) else quotation (c :: value) (c :: lexeme) rest

/-- The characters a number goes on with: digits, and underscores that separate them. -/
def continuesNumber (c : Char) : Bool := c.isDigit || c = '_'

def digitsValue (cs : List Char) : Nat :=
  cs.foldl (fun value c => if c.isDigit then 10 * value + (c.toNat - '0'.toNat) else value) 0

def digitCount (cs : List Char) : Nat := cs.countP Char.isDigit

/-- Reads a number behind its first digit: its value, its lexeme and the rest. A point belongs to
the number only when a digit follows it. -/
def number (first : Char) (ahead : List Char) : Number × List Char × List Char :=
  let whole := first :: ahead.takeWhile continuesNumber
  match ahead.dropWhile continuesNumber with
  | '.' :: d :: more =>
    if d.isDigit then
      let fraction := d :: more.takeWhile continuesNumber
      (.ofDecimal (digitsValue (whole ++ fraction)) (digitCount fraction), whole ++ '.' :: fraction,
        more.dropWhile continuesNumber)
    else (.ofDecimal (digitsValue whole) 0, whole, '.' :: d :: more)
  | rest => (.ofDecimal (digitsValue whole) 0, whole, rest)

/-- The longest operator or punctuation at the start of the text. -/
def symbol? (c : Char) : List Char → Option (Symbol × List Char)
  | d :: rest =>
    match Symbol.pair? c d with
    | some s => some (s, rest)
    | none => (Symbol.single? c).map (·, d :: rest)
  | [] => (Symbol.single? c).map (·, [])

def lexeme (line : Nat) (c : Char) (ahead : List Char) : Lexed × List Char :=
  match symbol? c ahead with
  | some (s, rest) => (.ok ⟨.symbol s, s.spelling, line⟩, rest)
  | none =>
    if c = '"' then
      match quotation [] ['"'] ahead with
      | .closed value spelled rest =>
        (.ok ⟨.text (String.ofList value.reverse), String.ofList spelled.reverse, line⟩, rest)
      | .unterminated rest => (.error ⟨.unterminatedString, line⟩, rest)
      | .invalidEscape e rest => (.error ⟨.invalidEscape e, line⟩, rest)
    else if c.isDigit then
      let (value, spelled, rest) := number c ahead
      (.ok ⟨.number value, String.ofList spelled, line⟩, rest)
    else if Text.startsName c then
      let word := String.ofList (c :: ahead.takeWhile Text.continuesName)
      (.ok ⟨.ofWord word, word, line⟩, ahead.dropWhile Text.continuesName)
    else (.error ⟨.unexpectedChar c, line⟩, ahead)

inductive Reading
  | finished (line : Nat)
  | item (lexed : Lexed) (after : Cursor)

def next (cursor : Cursor) : Reading :=
  let gap := skipGap .blank cursor.line cursor.ahead
  match gap.unclosed with
  | some openedOn => .item (.error ⟨.unterminatedComment, openedOn⟩) gap.cursor
  | none =>
    match gap.cursor.ahead with
    | [] => .finished gap.cursor.line
    | c :: rest =>
      let read := lexeme gap.cursor.line c rest
      .item read.1 ⟨read.2, gap.cursor.line⟩

/-! ### Progress -/

theorem skipGap_length_le (gap : Gap) (line : Nat) (cs : List Char) :
    (skipGap gap line cs).cursor.ahead.length ≤ cs.length := by
  fun_induction skipGap gap line cs <;> simp_all <;> omega

/-- An unclosed comment uses up the whole text. -/
theorem skipGap_unclosed {gap : Gap} {line openedOn : Nat} {cs : List Char}
    (h : (skipGap gap line cs).unclosed = some openedOn) : (skipGap gap line cs).cursor.ahead = [] := by
  fun_induction skipGap gap line cs <;> simp_all

theorem dropWhile_length_le (p : Char → Bool) (cs : List Char) : (cs.dropWhile p).length ≤ cs.length :=
  (List.dropWhile_suffix p).length_le

theorem number_length_le (first : Char) (ahead : List Char) : (number first ahead).2.2.length ≤ ahead.length := by
  have whole := dropWhile_length_le continuesNumber ahead
  unfold number
  split
  · rename_i d more rest
    have fraction := dropWhile_length_le continuesNumber more
    rw [rest] at whole
    simp only [List.length_cons] at whole
    split
    · exact Nat.le_trans fraction (by omega)
    · simpa using whole
  · exact whole

theorem symbol?_length_le {c : Char} {ahead rest : List Char} {s : Symbol}
    (h : symbol? c ahead = some (s, rest)) : rest.length ≤ ahead.length := by
  unfold symbol? at h
  split at h
  · split at h
    · cases h
      exact Nat.le_succ _
    · obtain ⟨_, _, eq⟩ := Option.map_eq_some_iff.mp h
      cases eq
      exact Nat.le_refl _
  · obtain ⟨_, _, eq⟩ := Option.map_eq_some_iff.mp h
    cases eq
    exact Nat.le_refl _

def Quotation.rest : Quotation → List Char
  | .closed _ _ rest => rest
  | .unterminated rest => rest
  | .invalidEscape _ rest => rest

theorem quotation_length_le (value spelled ahead : List Char) :
    (quotation value spelled ahead).rest.length ≤ ahead.length := by
  fun_induction quotation value spelled ahead <;> simp_all [Quotation.rest] <;> omega

theorem lexeme_length_le (line : Nat) (c : Char) (ahead : List Char) :
    (lexeme line c ahead).2.length ≤ ahead.length := by
  unfold lexeme
  split
  · rename_i h
    exact symbol?_length_le h
  · split
    · have bound := quotation_length_le [] ['"'] ahead
      split <;> simp_all [Quotation.rest]
    · split
      · exact number_length_le c ahead
      · split
        · exact dropWhile_length_le _ ahead
        · exact Nat.le_refl _

/-- Every reading but the last takes at least one character. -/
theorem next_shorter {cursor after : Cursor} {lexed : Lexed} (h : cursor.next = .item lexed after) :
    after.ahead.length < cursor.ahead.length := by
  have gap := skipGap_length_le .blank cursor.line cursor.ahead
  unfold next at h
  dsimp only at h
  split at h
  · rename_i openedOn unclosed
    cases h
    rw [skipGap_unclosed unclosed]
    cases chars : cursor.ahead with
    | nil => simp [chars, skipGap] at unclosed
    | cons c rest => simp
  · split at h
    · cases h
    · rename_i c rest skipped
      cases h
      rw [skipped] at gap
      exact Nat.lt_of_le_of_lt (lexeme_length_le _ c rest) gap

/-! ### The whole text -/

/-- Reads to the end: what was read, in order, and the line the text ends on. -/
def readAll (cursor : Cursor) (read : Array Lexed) : Array Lexed × Nat :=
  match _h : cursor.next with
  | .finished line => (read, line)
  | .item lexed after => readAll after (read.push lexed)
termination_by cursor.ahead.length
decreasing_by exact next_shorter ‹_›

end Cursor

/-- A source text cut into tokens and faults, in order. The end of the text is a token of its own,
which is never used up. -/
structure Tokens where
  items : List Lexed
  endLine : Nat

namespace Tokens

def ofSource (source : String) : Tokens :=
  let (read, endLine) := (Cursor.start source).readAll #[]
  ⟨read.toList, endLine⟩

def toList (tokens : Tokens) : List Lexed := tokens.items ++ [.ok (.endOfText tokens.endLine)]

def strict (tokens : Tokens) : Except LexicalError (List Token) := tokens.toList.mapM id

end Tokens

end Mudscript
