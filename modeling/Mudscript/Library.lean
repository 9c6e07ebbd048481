import Mudscript.Event
import Mudscript.Library.Path
import Mudscript.Value
import Std.Data.HashMap

/-!
# The library of objects

The library compiles an object unit the first time its path is asked for and keeps the program.
Later requests for any spelling of the path get the same program, without looking at the source
again. What could not be read or compiled is not kept.
-/

namespace Mudscript

inductive ObjectSource
  | memory (texts : Std.HashMap String String)
  /-- In files with an extension, under a directory. -/
  | files (root extension : String)

/-- Texts in memory, given in order: a later one with the same path wins. -/
def ObjectSource.ofTexts (texts : List (String × String)) : ObjectSource :=
  .memory (texts.foldl (fun kept (path, text) => kept.insert (ObjectPath.normalize path "") text) ∅)

inductive LoadError
  | unreadable (path : String) (cause : FileError)
  | uncompilable (path : String) (errors : CompileErrors)

def LoadError.message : LoadError → String
  | .unreadable path cause => "Can't read object '" ++ path ++ "': " ++ cause.message
  | .uncompilable path errors => "Object '" ++ path ++ "' failed to compile:\n" ++ errors.render

structure Library where
  source : ObjectSource
  /-- The extension that paths may be spelled with. -/
  extension : String
  programs : Std.HashMap String Program := ∅
  compiles : Nat := 0

namespace Library

def key (l : Library) (path : String) : String := ObjectPath.normalize path l.extension

def isCached (l : Library) (path : String) : Bool := l.programs.contains (l.key path)

inductive Origin
  | text (source : Except FileError String)
  | file (path : String)

def origin (l : Library) (key : String) : Origin :=
  match l.source with
  | .memory texts =>
    match texts[key]? with
    | some text => .text (.ok text)
    | none => .text (.error (.noObject key))
  | .files root extension =>
    match ObjectPath.file root extension key with
    | .ok path => .file path
    | .error e => .text (.error e)

/-- What came of a request, and what was noted on the way. -/
structure Loading where
  result : Except LoadError Program
  library : Library
  events : List Event

def enroll (l : Library) (key : String) (serial : Nat) (source : Except FileError String) :
    Loading :=
  match source with
  | .error e => ⟨.error (.unreadable key e), l, [.cacheMiss key]⟩
  | .ok text =>
    let compiled := compileObject key text
    let events := .cacheMiss key :: Event.ofObject key compiled
    match compiled with
    | .error errors =>
      ⟨.error (.uncompilable key errors), l, events ++ [.objectFailed key errors.size]⟩
    | .ok routine =>
      let program := ⟨serial, routine⟩
      ⟨.ok program,
        { l with programs := l.programs.insert key program, compiles := l.compiles + 1 }, events⟩

/-- How far a request gets without looking at a file. -/
inductive Answer
  | loaded (loading : Loading)
  | needsFile (key file : String)

/-- Asks for the program of a path. A new program gets the given serial number. -/
def ask (l : Library) (path : String) (serial : Nat) : Answer :=
  let key := l.key path
  match l.programs[key]? with
  | some program => .loaded ⟨.ok program, l, [.cacheHit key]⟩
  | none =>
    match l.origin key with
    | .text source => .loaded (l.enroll key serial source)
    | .file file => .needsFile key file

def load (l : Library) (path : String) (serial : Nat) (textOf : String → Except FileError String) :
    Loading :=
  match l.ask path serial with
  | .loaded loading => loading
  | .needsFile key file => l.enroll key serial (textOf file)

end Library

end Mudscript
