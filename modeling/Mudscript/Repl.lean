import Mudscript.Machine.Run
import Mudscript.Text.Lines

/-!
# Conversations

A conversation runs scripts that are typed line by line on one machine. A line with open braces is
not run yet: it is kept until the braces are closed. A semicolon at the end may be left out.
-/

namespace Mudscript

/-- The lines of an entry that is not complete, and how many braces are open in them, in 32 bits. -/
structure EntryBuffer where
  text : String := ""
  balance : Int32 := 0

namespace EntryBuffer

def count (balance : Int32) : Char → Int32
  | '\x7b' => balance + 1
  | '\x7d' => balance - 1
  | _ => balance

/-- An entry with a semicolon, unless it ends with one or with a block. -/
def withSemicolon (entry : String) : String :=
  match (Text.trimEndChars entry.toList).getLast? with
  | some ';' | some '\x7d' => entry
  | _ => entry ++ ";"

/-- Adds a line. The entry is complete when no brace is open. -/
def feed (b : EntryBuffer) (line : String) : Option String × EntryBuffer :=
  let text := if b.text.isEmpty then line else b.text ++ "\n" ++ line
  let balance := line.toList.foldl count b.balance
  if 0 < balance then (none, { text, balance }) else (some (withSemicolon text), {})

def cancel (b : EntryBuffer) : Bool × EntryBuffer := (!b.text.isEmpty, {})

end EntryBuffer

structure Repl where
  machine : Machine
  buffer : EntryBuffer := {}
  history : List String := []

namespace Repl

def historyOf (saved : String) : List String :=
  (Text.lines saved).filter fun line => !(Text.trim line).isEmpty

def savedHistory (r : Repl) : String := Text.joinLines r.history

def historyListing (r : Repl) : String :=
  "History:\n" ++ String.join (r.history.zipIdx.map fun (line, i) =>
    Text.padStart 4 ' ' (toString (i + 1)) ++ "  " ++ line ++ "\n")

def feed (r : Repl) (line : String) : Option String × Repl :=
  let (entry, buffer) := r.buffer.feed line
  (entry, { r with buffer })

def cancel (r : Repl) : Bool × Repl :=
  let (cancelled, buffer) := r.buffer.cancel
  (cancelled, { r with buffer })

variable {μ : Type → Type} [Monad μ]

def execute (r : Repl) (host : Host μ) (fuel : Nat) (entry : String) :
    μ (Except Failure Value × Repl) := do
  let (result, machine) ← r.machine.runScript host fuel "repl" entry
  return (result, { r with machine })

/-! ### Commands -/

inductive Request
  | leave
  | skip
  | help
  | showHistory
  | cancel
  | load (path : String)
  | loadUsage
  | unknown (command : String)
  | enter (line : String)

def commandOf (command : String) : Request :=
  match command with
  | ".help" => .help
  | ".history" | ".hist" => .showHistory
  | ".break" | ".cancel" => .cancel
  | ".load" => .loadUsage
  | _ =>
    if command.startsWith ".load " then .load (Text.trim (command.drop 6).toString)
    else .unknown command

/-- What a line asks for. In the middle of an entry an empty line and the word `exit` belong to
it. -/
def requestOf (r : Repl) (line : String) : Request :=
  let trimmed := Text.trim line
  if r.buffer.text.isEmpty && trimmed = "exit" then .leave
  else if r.buffer.text.isEmpty && trimmed.isEmpty then .skip
  else if trimmed.startsWith "." then commandOf trimmed
  else .enter line

def helpText : String :=
  "Commands:\n" ++
  "  .help            Show this list\n" ++
  "  .history, .hist  Show previous entries\n" ++
  "  .break           Discard an unfinished multi-line entry\n" ++
  "  .load <file>     Run a script file in this session\n" ++
  "  exit             Leave the REPL\n"

end Repl

end Mudscript
