/-!
# Command line options

What the arguments of the program ask for. The first argument that cannot be understood decides, as
does a request for help or for the version.
-/

namespace Mudscript

inductive Task
  | run (file : String)
  | evaluate (code : String)
  | list (file : String)
  | converse
  deriving DecidableEq

structure Options where
  task : Task := .converse
  objectRoot : Option String := none
  trace : Bool := false
  asObject : Bool := false
  deriving DecidableEq

inductive Invocation
  | start (o : Options)
  | help
  | version
  | misuse (message : String)
  deriving DecidableEq

namespace Options

/-- Options are complete at the end of the arguments. -/
def finish (o : Options) : Invocation :=
  match o.task with
  | .list _ => .start o
  | _ => if o.asObject then .misuse "--object only applies to --disassemble" else .start o

def read (o : Options) : List String → Invocation
  | [] => o.finish
  | "-e" :: code :: rest => read { o with task := .evaluate code } rest
  | ["-e"] => .misuse "-e requires code to evaluate"
  | "--disassemble" :: file :: rest => read { o with task := .list file } rest
  | ["--disassemble"] => .misuse "--disassemble requires a file"
  | "--object" :: rest => read { o with asObject := true } rest
  | "--object-root" :: root :: rest => read { o with objectRoot := some root } rest
  | ["--object-root"] => .misuse "--object-root requires a directory"
  | "--trace" :: rest => read { o with trace := true } rest
  | "--help" :: _ | "-h" :: _ => .help
  | "--version" :: _ | "-v" :: _ => .version
  | argument :: rest =>
    if argument.startsWith "-" then .misuse ("Unknown option: " ++ argument)
    else if o.task = .converse then read { o with task := .run argument } rest
    else .misuse ("Unexpected argument: " ++ argument)

end Options

def Invocation.ofArguments (arguments : List String) : Invocation := Options.read {} arguments

end Mudscript
