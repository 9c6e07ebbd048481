import Mudscript.Files
import Mudscript.Json
import Mudscript.Settings
import Mudscript.Text.Blank

/-!
# Reading settings

Settings start from their defaults. A file in the JSON format can change them, and variables of the
environment can change them again. A file holds an object, whose unknown members do not matter, or
an array of the values in a fixed order.
-/

namespace Mudscript

inductive SettingsError
  | unreadable (path : String) (cause : FileError)
  | malformed (path : String)
  | invalidVariable (name value : String)

def SettingsError.message : SettingsError → String
  | .unreadable path cause => "Can't read config file " ++ path ++ ": " ++ cause.message
  | .malformed path => "Malformed config file " ++ path
  | .invalidVariable name value => "Invalid value '" ++ value ++ "' for " ++ name

namespace Settings

/-- Counts are below this. -/
def countLimit : Nat := Nat.pow 2 64

/-! ### Files -/

/-- The names of the settings, in the order in which an array holds them. -/
def names : List String :=
  ["max_frames", "stack_capacity", "object_root", "object_extension", "trace_execution"]

def count? : Json → Option Nat
  | .number (some n) => if n < countLimit then some n else none
  | _ => none

def text? : Json → Option String
  | .text s? => s?
  | _ => none

def flag? : Json → Option Bool
  | .bool b => some b
  | _ => none

def set? (s : Settings) (name : String) (v : Json) : Option Settings :=
  match name with
  | "max_frames" => (count? v).map ({ s with maxFrames := · })
  | "stack_capacity" => (count? v).map ({ s with stackCapacity := · })
  | "object_root" => (text? v).map ({ s with objectRoot := · })
  | "object_extension" => (text? v).map ({ s with objectExtension := · })
  | "trace_execution" => (flag? v).map ({ s with traceExecution := · })
  | _ => some s

def setAll? (s : Settings) (members : List (String × Json)) : Option Settings :=
  members.foldlM (fun s (name, v) => s.set? name v) s

/-- The settings that a JSON value holds. No setting may be given twice. -/
def ofJson? : Json → Option Settings
  | .object members => do
    let members ← members.mapM fun (key, v) => key.map (·, v)
    if ((members.map Prod.fst).filter names.contains).Nodup then setAll? {} members else none
  | .array items => if items.length ≤ names.length then setAll? {} (names.zip items) else none
  | _ => none

def ofFile (path : String) : Except FileError String → Except SettingsError Settings
  | .error e => .error (.unreadable path e)
  | .ok text =>
    match (Json.parse? text).bind ofJson? with
    | some s => .ok s
    | none => .error (.malformed path)

/-! ### The environment -/

/-- A count as it is written in a variable: digits, with or without a plus sign. -/
def countOf? (text : String) : Option Nat :=
  let digits := match text.toList with
    | '+' :: rest => rest
    | cs => cs
  let n := Json.naturalOf digits
  if digits.isEmpty || !digits.all Char.isDigit || countLimit ≤ n then none else some n

def flagOf? (text : String) : Option Bool :=
  if ["1", "true", "yes", "on"].contains text then some true
  else if ["0", "false", "no", "off", ""].contains text then some false
  else none

def applyVariable {α : Type} (lookup : String → Option String) (name : String)
    (read? : String → Option α) (set : Settings → α → Settings) :
    EStateM SettingsError Settings Unit :=
  match lookup name with
  | none => pure ()
  | some value =>
    match read? value with
    | some a => modify (set · a)
    | none => throw (.invalidVariable name value)

/-- Changes the settings by the variables of the environment, up to the first one with an invalid
value. A limit of zero calls is invalid. -/
def applyVariables (lookup : String → Option String) : EStateM SettingsError Settings Unit := do
  applyVariable lookup "LPCVM_MAX_FRAMES"
    (fun value => (countOf? (Text.trim value)).filter (0 < ·))
    fun s n => { s with maxFrames := n }
  applyVariable lookup "LPCVM_OBJECT_ROOT" some fun s root => { s with objectRoot := root }
  applyVariable lookup "LPCVM_TRACE" (fun value => flagOf? (Text.trim value))
    fun s b => { s with traceExecution := b }

def withVariables (s : Settings) (lookup : String → Option String) :
    Except SettingsError Settings :=
  match applyVariables lookup s with
  | .ok () s => .ok s
  | .error e _ => .error e

end Settings

end Mudscript
