import Mudscript.Machine.Run

/-!
# Consoles

What the command line needs from the system it runs on. A console has the effects of a monad, and
`Console.scripted` is one without: its input is given beforehand and what it writes is kept.
-/

namespace Mudscript

structure Console (μ : Type → Type) where
  textOf : String → μ (Except FileError String)
  fileExists : String → μ Bool
  save : String → String → μ Unit
  variableOf : String → μ (Option String)
  /-- The next line of the input, without its ending; `none` at the end. -/
  readLine : μ (Option String)
  print : String → μ Unit
  report : String → μ Unit
  time : μ Number

namespace Console

variable {μ : Type → Type} [Monad μ]

/-- A machine on a console prints to it, and reports its events there if they are to be shown. -/
def host (c : Console μ) (showEvents : Bool) : Host μ where
  textOf := c.textOf
  time := c.time
  relay := fun m => do
    if showEvents then m.events.forM fun e => c.report (e.render ++ "\n")
    if m.output.isEmpty then return { m with events := #[] }
    c.print m.output
    return { m with events := #[], output := "" }

end Console

/-- A console without effects, in the middle of its work. -/
structure Transcript where
  files : Files
  environment : List (String × String) := []
  input : List String := []
  output : String := ""
  errors : String := ""

def Console.scripted : Console (StateM Transcript) where
  textOf := fun path => return (← get).files.read path
  fileExists := fun path => return (← get).files.contains path
  save := fun path text => modify fun t =>
    match t.files.write path text with
    | .ok files => { t with files }
    | .error _ => t
  variableOf := fun name => return (← get).environment.lookup name
  readLine := modifyGet fun t =>
    match t.input with
    | [] => (none, t)
    | line :: rest => (some line, { t with input := rest })
  print := fun text => modify fun t => { t with output := t.output ++ text }
  report := fun text => modify fun t => { t with errors := t.errors ++ text }
  time := return .ofDecimal 1 3

end Mudscript
