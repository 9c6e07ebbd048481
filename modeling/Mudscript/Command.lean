import Mudscript.Command.Options
import Mudscript.Console
import Mudscript.Machine.Start
import Mudscript.Repl
import Mudscript.Routine.Listing
import Mudscript.Settings.Read

/-!
# The command line

Runs scripts, lists code and holds conversations on a console, and ends with a status that tells
what went wrong.
-/

namespace Mudscript

def programName : String := "lpcvm"

def versionText : String := programName ++ " 0.1.0"

def usageText : String :=
  versionText ++ " - LPC-style object language\n" ++
  "\n" ++
  "Usage: lpcvm [options] [script.c]\n" ++
  "       lpcvm [options] -e <code>\n" ++
  "       lpcvm --disassemble <file> [--object]\n" ++
  "\n" ++
  "Options:\n" ++
  "  -e <code>            Evaluate code\n" ++
  "  --disassemble <file> Print the bytecode of a script\n" ++
  "  --object             With --disassemble, compile the file as an object unit\n" ++
  "  --object-root <dir>  Directory object paths are resolved against\n" ++
  "  --trace              Log every executed instruction (LPCVM_LOG=trace)\n" ++
  "  --help, -h           Show this help message\n" ++
  "  --version, -v        Show version\n" ++
  "\n" ++
  "Examples:\n" ++
  "  lpcvm                         Start interactive REPL\n" ++
  "  lpcvm game.c                  Run a script file\n" ++
  "  lpcvm --object-root lib go.c  Run with objects loaded from lib/\n"

inductive Status
  | success | usage | invalidSource | runtimeFailure | fileFailure
  deriving DecidableEq, Repr

def Status.code : Status → UInt32
  | .success => 0
  | .usage => 64
  | .invalidSource => 65
  | .runtimeFailure => 70
  | .fileFailure => 74

def Failure.status : Failure → Status
  | .compile _ | .load _ => .invalidSource
  | .runtime .. | .exhausted => .runtimeFailure
  | .unreadable _ => .fileFailure

namespace Console

variable {μ : Type → Type} [Monad μ] (c : Console μ)

def reportLine (line : String) : μ Unit := c.report (line ++ "\n")

def reportResult {α : Type} (result : Except Failure α) : μ Status := do
  match result with
  | .ok _ => return .success
  | .error f =>
    c.reportLine f.message
    return f.status

/-! ### Settings -/

def home? : μ (Option String) := return (← c.variableOf "HOME").filter (· ≠ "")

def settingsPath? : μ (Option String) := do
  let file := fun directory => ObjectPath.join directory "lpcvm/config.json"
  match (← c.variableOf "XDG_CONFIG_HOME").filter (·.startsWith "/") with
  | some directory => return some (file directory)
  | none => return (← c.home?).map fun home => file (ObjectPath.join home ".config")

def loadSettings : μ (Except SettingsError Settings) := do
  let lookup ← environment
  match ← c.settingsPath? with
  | none => return Settings.withVariables {} lookup
  | some path =>
    if ← c.fileExists path then
      return Settings.ofFile path (← c.textOf path) >>= (·.withVariables lookup)
    else return Settings.withVariables {} lookup
where
  environment : μ (String → Option String) := do
    let names := ["LPCVM_MAX_FRAMES", "LPCVM_OBJECT_ROOT", "LPCVM_TRACE"]
    let values ← names.mapM c.variableOf
    return fun name => ((names.zip values).lookup name).join

/-! ### Tasks -/

def list (file : String) (asObject : Bool) : μ Status := do
  match ← c.textOf file with
  | .error e =>
    c.reportLine ("Can't read " ++ file ++ ": " ++ e.message)
    return .fileFailure
  | .ok source =>
    match if asObject then compileObject file source else compileScript file source with
    | .ok routine =>
      c.print routine.listing
      return .success
    | .error errors => c.reportResult (.error (.compile errors) : Except Failure Unit)

def historyPath : μ String := do
  match ← c.home? with
  | some home => return ObjectPath.join home ".lpcvm_history"
  | none => return ".lpcvm_history"

def answer (host : Host μ) (fuel : Nat) (r : Repl) (request : Repl.Request) : μ Repl := do
  match request with
  | .leave | .skip => return r
  | .help => c.print Repl.helpText; return r
  | .showHistory => c.print r.historyListing; return r
  | .cancel =>
    let (cancelled, r) := r.cancel
    c.print (if cancelled then "Entry discarded.\n" else "Not in multi-line mode.\n")
    return r
  | .load path =>
    let (result, machine) ← r.machine.runFile host fuel path
    discard (c.reportResult result)
    return { r with machine }
  | .loadUsage => c.print "Usage: .load <filename>\n"; return r
  | .unknown command =>
    c.print ("Unknown command: " ++ command ++ ". Type .help for available commands.\n")
    return r
  | .enter line =>
    match { r with history := r.history ++ [line] }.feed line with
    | (none, r) => return r
    | (some entry, r) =>
      let (result, r) ← r.execute host fuel entry
      discard (c.reportResult result)
      return r

/-- Reads and answers lines until the input ends or the conversation is left. -/
def converseFrom (host : Host μ) (fuel : Nat) : Nat → Repl → μ Repl
  | 0, r => return r
  | lines + 1, r => do
    c.print (if r.buffer.text.isEmpty then "lpc> " else "...> ")
    match ← c.readLine with
    | none => return r
    | some line =>
      match r.requestOf line with
      | .leave => return r
      | request => converseFrom host fuel lines (← c.answer host fuel r request)

def converse (host : Host μ) (fuel : Nat) (machine : Machine) : μ Status := do
  let path ← c.historyPath
  let history := match ← c.textOf path with
    | .ok saved => Repl.historyOf saved
    | .error _ => []
  c.print (versionText ++ " REPL\nType .help for commands, exit or Ctrl-D to quit.\n\n")
  let r ← c.converseFrom host fuel fuel { machine, history }
  c.save path r.savedHistory
  c.print "\nGoodbye!\n"
  return .success

def perform (o : Options) (fuel : Nat) : μ Status := do
  match ← c.loadSettings with
  | .error e =>
    c.reportLine e.message
    return .usage
  | .ok settings =>
    let machine := Machine.ofSettings
      { settings with
        objectRoot := o.objectRoot.getD settings.objectRoot
        traceExecution := o.trace || settings.traceExecution }
    let host := c.host o.trace
    match o.task with
    | .run file => c.reportResult (← machine.runFile host fuel file).1
    | .evaluate code => c.reportResult (← machine.runScript host fuel "eval" code).1
    | .list file => c.list file o.asObject
    | .converse => c.converse host fuel machine

def run (arguments : List String) (fuel : Nat) : μ Status := do
  match Invocation.ofArguments arguments with
  | .start o => c.perform o fuel
  | .help =>
    c.report usageText
    return .success
  | .version =>
    c.print (versionText ++ "\n")
    return .success
  | .misuse message =>
    c.reportLine message
    c.report usageText
    return .usage

end Console

end Mudscript
