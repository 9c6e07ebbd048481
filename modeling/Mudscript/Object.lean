import Mudscript.Text.Quoted
import Mudscript.Value

/-!
# Objects

An object has a name, fields, methods and at most one parent. What it does not have itself it has
from its parent, so a look-up walks along the chain of parents. Members keep the order in which they
were first declared: declaring one again changes its value and not its place.
-/

namespace Mudscript

abbrev Members (α : Type) := List (String × α)

namespace Members

variable {α : Type}

def get? : Members α → String → Option α
  | [], _ => none
  | (key, value) :: rest, name => if key = name then some value else get? rest name

/-- Sets a member: in its place if there is one of this name, and at the end otherwise. -/
def put : Members α → String → α → Members α
  | [], name, value => [(name, value)]
  | (key, old) :: rest, name, value =>
    if key = name then (key, value) :: rest else (key, old) :: put rest name value

def names (members : Members α) : List String := members.map Prod.fst

end Members

structure Object where
  /-- The path of the unit that made the object. -/
  name : String
  fields : Members Value := []
  methods : Members Closure := []
  parent : Option ObjectId := none

namespace Object

/-- A field of the object itself, or else a method. -/
def own? (o : Object) (name : String) : Option Value :=
  match o.fields.get? name with
  | some value => some value
  | none => (o.methods.get? name).map .closure

def putField (o : Object) (name : String) (value : Value) : Object :=
  { o with fields := o.fields.put name value }

def putMethod (o : Object) (name : String) (method : Closure) : Object :=
  { o with methods := o.methods.put name method }

end Object

abbrev Objects := Array Object

namespace Objects

variable (objects : Objects)

def nameOf (o : ObjectId) : String :=
  match objects[o]? with
  | some object => object.name
  | none => ""

/-- An object and its parents, at most `n` of them. -/
def chainUpTo : Nat → ObjectId → List ObjectId
  | 0, _ => []
  | n + 1, o =>
    match objects[o]? with
    | none => []
    | some object =>
      match object.parent with
      | none => [o]
      | some parent => o :: chainUpTo n parent

/-- An object and all its parents. A chain without repetition cannot be longer than the store. -/
def chain (o : ObjectId) : List ObjectId := chainUpTo objects objects.size o

def search {α : Type} (o : ObjectId) (f : Object → Option α) : Option α :=
  (chain objects o).findSome? fun i => objects[i]?.bind f

def property? (o : ObjectId) (name : String) : Option Value := search objects o (·.own? name)

def method? (o : ObjectId) (name : String) : Option Closure :=
  search objects o (·.methods.get? name)

def ancestor? (o : ObjectId) (p : Object → Bool) : Option ObjectId :=
  (chain objects o).find? fun i => objects[i]?.any p

def named? (o : ObjectId) (name : String) : Option ObjectId := ancestor? objects o (·.name = name)

/-- The object that declares a field: the object itself or its nearest parent with the field. -/
def holder? (o : ObjectId) (name : String) : Option ObjectId :=
  ancestor? objects o fun object => (object.fields.get? name).isSome

/-- Sets a field where it is declared; `none` if nothing along the chain declares it. Only the
construction of an object declares fields. -/
def assign? (o : ObjectId) (name : String) (value : Value) : Option Objects :=
  (holder? objects o name).map fun holder => objects.modify holder (·.putField name value)

def parent? (o : ObjectId) : Option ObjectId := objects[o]?.bind Object.parent

def link (o parent : ObjectId) : Objects :=
  objects.modify o fun object => { object with parent := some parent }

def describe (o : Object) : String :=
  let list := fun (names : List String) => "[" ++ ", ".intercalate (names.map Text.quoted) ++ "]"
  let parent := match o.parent with
    | some p => "Some(" ++ Text.quoted (nameOf objects p) ++ ")"
    | none => "None"
  "RuntimeObject \x7b name: " ++ Text.quoted o.name ++ ", fields: " ++ list o.fields.names ++
    ", methods: " ++ list o.methods.names ++ ", super_object: " ++ parent ++ " \x7d"

end Objects

end Mudscript
