import Mudscript.Files
import Mudscript.Text.Blank

/-!
# Object paths

An object is named by a path such as `/std/base`. One object has many spellings, with blanks around
it, without the slash in front, or with the extension of source files, and `normalize` gives the one
it is kept under. `file` tells which file holds the source of an object; no object path leads out of
the directory of objects.
-/

namespace Mudscript.ObjectPath

def dropEnding? (ending cs : List Char) : Option (List Char) :=
  if ending.isSuffixOf cs then some (cs.take (cs.length - ending.length)) else none

def dropExtension (extension cs : List Char) : List Char :=
  if extension.isEmpty then cs
  else ((dropEnding? extension cs).bind (dropEnding? ['.'])).getD cs

def withSlash (cs : List Char) : List Char :=
  match cs with
  | '/' :: _ => cs
  | _ => '/' :: cs

def normalizeChars (path extension : List Char) : List Char :=
  withSlash (dropExtension extension (Text.trimStartChars (Text.trimEndChars path)))

/-- The canonical spelling of an object path: trimmed, without the extension of source files, and
with a slash in front. -/
def normalize (path extension : String) : String :=
  String.ofList (normalizeChars path.toList extension.toList)

def join (root relative : String) : String :=
  match root.toList.getLast? with
  | none | some '/' => root ++ relative
  | some _ => root ++ "/" ++ relative

def components (path : String) : List (List Char) := path.toList.splitOn '/'

def relative (path : String) : String := String.ofList (path.toList.dropWhile (· = '/'))

def file (root extension path : String) : Except FileError String :=
  let inside := relative path
  if inside.isEmpty || (components inside).contains ['.', '.'] then .error (.outsideRoot path)
  else .ok (join root inside ++ if extension.isEmpty then "" else "." ++ extension)

end Mudscript.ObjectPath
