/-!
# Files

A tree of files as a value, and why a file cannot be read. Paths are relative to the directory the
program was started in, and a path that starts with a slash, or goes up too far, leads out of the
tree.
-/

namespace Mudscript

inductive FileError
  | notFound
  | isDirectory
  | notDirectory
  | invalidEncoding
  /-- An object path that leads out of the directory of objects. -/
  | outsideRoot (path : String)
  /-- An object path under which nothing is kept in memory. -/
  | noObject (path : String)
  /-- Any other refusal of the system, in its words. -/
  | system (text : String)
  deriving DecidableEq

def FileError.message : FileError → String
  | .notFound => "No such file or directory (os error 2)"
  | .isDirectory => "Is a directory (os error 21)"
  | .notDirectory => "Not a directory (os error 20)"
  | .invalidEncoding => "stream did not contain valid UTF-8"
  | .outsideRoot path => "object path '" ++ path ++ "' is outside the object root"
  | .noObject path => "no object at " ++ path
  | .system text => text

inductive Entry
  | file (content : ByteArray)
  | directory

/-- The entries by path, as the names from the top of the tree down. The directories that lead to an
entry exist with it. -/
structure Files where
  entries : List (List String × Entry) := []

namespace Files

/-- The names in a path, where the path itself does not go up. -/
def namesOf (path : String) : List String :=
  (path.splitOn "/").filter fun name => name ≠ "" && name ≠ "."

def ofList (entries : List (String × Entry)) : Files :=
  ⟨entries.map fun (path, entry) => (namesOf path, entry)⟩

def entry? (files : Files) (names : List String) : Option Entry :=
  match files.entries.lookup names with
  | some entry => some entry
  | none =>
    if names.isEmpty || files.entries.any (names.isPrefixOf ·.1) then some .directory else none

/-- A place on the way along a path: names from the top of the tree, or outside of the tree. -/
inductive Place
  | inside (names : List String)
  | outside

def find (files : Files) : Place → Except FileError Entry
  | .inside names =>
    match files.entry? names with
    | some entry => .ok entry
    | none => .error .notFound
  | .outside => .ok .directory

/-- Takes the next name of a path at a place, which must be a directory. Nothing is known about what
is outside of the tree. -/
def descend (files : Files) (place : Place) (name : String) : Except FileError Place := do
  match ← files.find place, place with
  | .file _, _ => .error .notDirectory
  | .directory, .inside names =>
    if name = "" || name = "." then .ok place
    else if name = ".." then .ok (if names.isEmpty then .outside else .inside names.dropLast)
    else .ok (.inside (names ++ [name]))
  | .directory, .outside =>
    if name = "" || name = "." || name = ".." then .ok .outside else .error .notFound

/-- Where a path leads, whether or not there is something. -/
def follow (files : Files) (path : String) : Except FileError Place :=
  if path.isEmpty then .error .notFound
  else
    let start := if path.startsWith "/" then Place.outside else .inside []
    (path.splitOn "/").foldlM files.descend start

def readBytes (files : Files) (path : String) : Except FileError ByteArray := do
  match ← files.find (← files.follow path) with
  | .file content => .ok content
  | .directory => .error .isDirectory

def contains (files : Files) (path : String) : Bool :=
  match files.follow path >>= files.find with
  | .ok _ => true
  | .error _ => false

def decode (content : ByteArray) : Except FileError String :=
  match String.fromUTF8? content with
  | some text => .ok text
  | none => .error .invalidEncoding

def read (files : Files) (path : String) : Except FileError String := do
  decode (← files.readBytes path)

/-- Writes a file. The directory it is in must exist. -/
def write (files : Files) (path : String) (text : String) : Except FileError Files := do
  match ← files.follow path with
  | .outside => .error .isDirectory
  | .inside names =>
    match files.entry? names with
    | some .directory => .error .isDirectory
    | _ =>
      match ← files.find (.inside names.dropLast) with
      | .file _ => .error .notDirectory
      | .directory => .ok ⟨(names, .file text.toUTF8) :: files.entries.filter (·.1 ≠ names)⟩

end Files

end Mudscript
