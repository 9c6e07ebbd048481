import Mudscript.Proofs.Coding.Units

/-!
# Which operations occur where

An object unit starts with the construction of its object, which bears the path of the unit, and its first
parent, if it names one, follows at once. Its object is the only one that is made, and nothing in the unit,
however deep, is about a global variable. Scripts are the other way round: the operations of object units do
not occur in them.
-/

namespace Mudscript

open List

def Opcode.isGlobal : Opcode → Bool
  | .getGlobal | .defineGlobal | .setGlobal => true
  | _ => false

theorem Instruction.Belongs.isGlobal_eq {kind} {path : String} {i : Instruction}
    (h : i.Belongs kind (some path)) : i.opcode.isGlobal = false := by
  cases i <;> first | rfl | cases h

/-- The unit inherits from the unit with the given path, and does so right after its object was made. -/
def Routine.Inherits (r : Routine) (path : String) : Prop :=
  ∃ index, r.code.At 3 (.constant index) ∧ r.code.constants[index]? = some (.text path) ∧
    r.code.At 6 .compile ∧ r.code.At 7 .inherit

theorem Member.Codes.mem {m : Member} {constants is} {i : Instruction} (h : m.Codes constants is) (hi : i ∈ is) :
    i.evaluates = true ∨ (∃ name, i = .field name) ∨ ∃ name, i = .method name := by
  cases m with
  | field x value =>
    obtain ⟨initial, name, rfl, _, hinitial, _⟩ := h
    rcases mem_append.mp hi with hi | hi
    · obtain ⟨front, back, rfl⟩ := append_of_mem hi
      exact .inl hinitial.contained.of_split.1
    · exact .inr (.inl ⟨name, mem_singleton.mp hi⟩)
  | method x ps body =>
    obtain ⟨index, captures, name, q, rfl, _⟩ := h
    rcases mem_cons.mp hi with rfl | hi
    · exact .inl rfl
    · exact .inr (.inr ⟨name, mem_singleton.mp hi⟩)

namespace ObjectUnit.Codes

variable {unit : ObjectUnit} {path : String} {code : UnitCode} {r : Routine}

/-- Behind the construction of the object nothing is constructed, and only parents are inherited from. -/
theorem exists_rest (h : unit.Codes path code r) : ∃ name rest, code.instructions = .object name :: rest ∧
    r.code.constants[name]? = some (.text path) ∧ (∀ index, .object index ∉ rest) ∧
    (unit.parents = [] → .inherit ∉ rest) := by
  obtain ⟨name, parents, hhead, hname, hparents⟩ := h.head
  have hmembers : ∀ i ∈ code.members.flatten, i.evaluates = true ∨ (∃ name, i = .field name) ∨
      ∃ name, i = .method name := by
    have hall := h.members
    generalize code.members = parts, unit.members = ms at hall
    induction hall with
    | nil => exact nofun
    | cons hm _ ih =>
      rw [flatten_cons, forall_mem_append]
      exact ⟨fun i hi => hm.mem hi, ih⟩
  have hinheriting : ∀ i ∈ parents.flatten, (∃ index, i = .constant index) ∨ i = .compile ∨ i = .inherit := by
    clear hhead
    generalize unit.parents = paths at hparents
    induction hparents with
    | nil => exact nofun
    | cons hpart _ ih =>
      obtain ⟨index, rfl, _⟩ := hpart
      rw [flatten_cons, forall_mem_append]
      refine ⟨?_, ih⟩
      simp
  refine ⟨name, parents.flatten ++ code.members.flatten ++ [.ret], ?_, hname, fun index hindex => ?_,
    fun hnone hinherit => ?_⟩
  · rw [UnitCode.instructions, hhead]
    rfl
  · simp only [mem_append, mem_singleton, reduceCtorEq, or_false] at hindex
    rcases hindex with hi | hi
    · rcases hinheriting _ hi with ⟨_, hi⟩ | hi | hi <;> cases hi
    · rcases hmembers _ hi with hi | ⟨_, hi⟩ | ⟨_, hi⟩ <;> cases hi
  · rw [hnone, forall₂_nil_left_iff] at hparents
    rw [hparents] at hinherit
    simp only [flatten_nil, nil_append, mem_append, mem_singleton, reduceCtorEq,
      or_false] at hinherit
    rcases hmembers _ hinherit with hi | ⟨_, hi⟩ | ⟨_, hi⟩ <;> cases hi

theorem inherits (h : unit.Codes path code r) {p : String} {paths} (hparents : unit.parents = p :: paths) :
    r.Inherits p := by
  obtain ⟨name, parents, hhead, _, hcodes⟩ := h.head
  rw [hparents] at hcodes
  obtain ⟨_, rest, ⟨index, rfl, hp⟩, _, rfl⟩ := forall₂_cons_left_iff.mp hcodes
  have hlists := h.lists
  rw [UnitCode.instructions, hhead, flatten_cons] at hlists
  refine ⟨index, (hlists.at_iff _ _).mpr ⟨[.object name], _, rfl, rfl⟩, hp, ?_, ?_⟩
  · exact (hlists.at_iff _ _).mpr ⟨[.object name, .constant index], _, rfl, rfl⟩
  · exact (hlists.at_iff _ _).mpr ⟨[.object name, .constant index, .compile], _, rfl, rfl⟩

end ObjectUnit.Codes

/-- What is particular to the code of the object unit with the given path. -/
structure Routine.Makes (r : Routine) (path : String) : Prop where
  first : ∃ index, r.code.At 0 (.object index) ∧ r.code.constants[index]? = some (.text path)
  once : ∀ offset index, r.code.At offset (.object index) → offset = 0
  inherits : ∀ offset, r.code.At offset .inherit → ∃ parent, r.Inherits parent
  silent : ∀ q, r.Within q → ∀ offset i, q.code.At offset i → i.opcode.isGlobal = false
  nested : ∀ (index : Nat) q, r.code.constants[index]? = some (.routine q) → ∀ p, q.Within p → p.kind ≠ .object

theorem Routine.Nested.kind_ne {owner} {q p : Routine} (h : q.Nested owner) (hp : q.Within p) : p.kind ≠ .object := by
  rcases (h p hp).2 with hkind | hkind <;> rw [hkind] <;> exact nofun

theorem makes_of_compileObject {path source : String} {r : Routine} (h : compileObject path source = .ok r) :
    r.Makes path := by
  obtain ⟨unit, code, hcodes⟩ := exists_codes_of_compileObject h
  obtain ⟨name, rest, hcode, hname, hobject, hinherit⟩ := hcodes.exists_rest
  have hlists := hcodes.lists
  rw [hcode] at hlists
  refine ⟨⟨name, (hlists.at_iff _ _).mpr ⟨[], rest, rfl, rfl⟩, hname⟩, fun offset index hat => ?_, fun offset hat => ?_,
    fun q hq offset i hat => ((hcodes.careful.within hcodes.nested hq).belongs offset i hat).isGlobal_eq,
    fun index q hq p hp => (hcodes.nested index q hq).kind_ne hp⟩
  · obtain ⟨front, back, hsplit, rfl⟩ := (hlists.at_iff _ _).mp hat
    cases front with
    | nil => rfl
    | cons _ front =>
      refine absurd ?_ (hobject index)
      rw [(List.cons.inj hsplit).2]
      exact mem_append_right _ mem_cons_self
  · cases hparents : unit.parents with
    | nil =>
      obtain ⟨front, back, hsplit, _⟩ := (hlists.at_iff _ _).mp hat
      cases front with
      | nil => cases hsplit
      | cons _ front =>
        refine absurd ?_ (hinherit hparents)
        rw [(List.cons.inj hsplit).2]
        exact mem_append_right _ mem_cons_self
    | cons p paths => exact ⟨p, hcodes.inherits hparents⟩

theorem kind_ne_of_compileScript {name source : String} {r q : Routine} (h : compileScript name source = .ok r)
    (hq : r.Within q) : q.kind ≠ .object := by
  have hcodes := codes_of_compileScript h
  cases hq with
  | self =>
    rw [hcodes.isUnit.kind_eq]
    exact nofun
  | inside hget hwithin => exact (hcodes.nested _ _ hget).kind_ne hwithin

theorem header_of_compileObject {path source : String} {r : Routine} (h : compileObject path source = .ok r) :
    r.name = path ∧ r.owner = some path := by
  obtain ⟨unit, code, hcodes⟩ := exists_codes_of_compileObject h
  exact ⟨hcodes.name_eq, hcodes.careful.owner_eq⟩

/-! ### Object units and scripts -/

/-- The operations that make an object, give it a parent and fill it. -/
def Opcode.isConstruction : Opcode → Bool
  | .object | .compile | .inherit | .field | .method => true
  | _ => false

def Opcode.isParental : Opcode → Bool
  | .super | .superInvoke => true
  | _ => false

section

variable {kind : RoutineKind} {owner : Option String} {i : Instruction}

theorem Instruction.Belongs.isConstruction_eq (h : i.Belongs kind owner) (hkind : kind ≠ .object) :
    i.opcode.isConstruction = false := by
  cases i <;> first | rfl | exact absurd h hkind

theorem Instruction.Belongs.isParental_eq (h : i.Belongs kind none) : i.opcode.isParental = false := by
  cases i <;> first | rfl | exact absurd rfl h

end

/-- The code of a routine consists of instructions whose operations have a property. -/
def Routine.ConsistsOf (r : Routine) (P : Opcode → Prop) : Prop :=
  ∃ is, r.code.Lists is ∧ ∀ i ∈ is, P i.opcode

theorem Routine.Careful.consistsOf {owner} {r : Routine} {P : Opcode → Prop} (h : r.Careful owner)
    (hP : ∀ i : Instruction, i.Belongs r.kind owner → P i.opcode) : r.ConsistsOf P := by
  obtain ⟨is, hlists⟩ := h.listing
  refine ⟨is, hlists, fun i hi => hP i ?_⟩
  obtain ⟨front, back, rfl⟩ := append_of_mem hi
  exact h.belongs _ i ((hlists.at_iff _ i).mpr ⟨front, back, rfl, rfl⟩)

/-- Object units and scripts have different operations, at every depth, and all routines of a unit are owned
alike. An object unit makes its object first and only then. -/
theorem units_apart (source : String) (r : Routine) : (∀ path, compileObject path source = .ok r →
      (r.owner = some path ∧ ∃ name rest, r.code.Lists (.object name :: rest) ∧
        r.code.constants[name]? = some (.text path) ∧ ∀ i ∈ rest, i.opcode ≠ .object ∧ i.opcode.isGlobal = false) ∧
      ∀ (index : Nat) q, r.code.constants[index]? = some (.routine q) → ∀ p, q.Within p → p.owner = some path ∧
        p.ConsistsOf fun op => op.isGlobal = false ∧ op.isConstruction = false) ∧
    ∀ name, compileScript name source = .ok r → ∀ q, r.Within q → q.owner = none ∧
      q.ConsistsOf fun op => op.isConstruction = false ∧ op.isParental = false := by
  refine ⟨fun path h => ?_, fun name h q hq => ?_⟩
  · obtain ⟨unit, code, hcodes⟩ := exists_codes_of_compileObject h
    obtain ⟨name, rest, hcode, hname, hobject, -⟩ := hcodes.exists_rest
    have hlists := hcodes.lists
    rw [hcode] at hlists
    refine ⟨⟨hcodes.careful.owner_eq, name, rest, hlists, hname, fun i hi => ⟨fun heq => ?_, ?_⟩⟩,
      fun index q hget p hp => ?_⟩
    · cases i with
      | object index => exact hobject index hi
      | _ => cases heq
    · obtain ⟨front, back, rfl⟩ := append_of_mem hi
      have hat := (hlists.at_iff _ i).mpr ⟨.object name :: front, back, rfl, rfl⟩
      exact (hcodes.careful.belongs _ i hat).isGlobal_eq
    · have hcareful := (hcodes.nested index q hget p hp).1
      have hkind := (hcodes.nested index q hget).kind_ne hp
      exact ⟨hcareful.owner_eq, hcareful.consistsOf fun i hi => ⟨hi.isGlobal_eq, hi.isConstruction_eq hkind⟩⟩
  · have hcodes := codes_of_compileScript h
    have hcareful := hcodes.careful.within hcodes.nested hq
    have hkind := kind_ne_of_compileScript h hq
    exact ⟨hcareful.owner_eq, hcareful.consistsOf fun i hi => ⟨hi.isConstruction_eq hkind, hi.isParental_eq⟩⟩

theorem exists_in_method : ∃ r q p, compileObject "/a" "int f(){return function(){return ::f();};}" = .ok r ∧
    r.code.constants[1]? = some (.routine q) ∧ q.code.constants[0]? = some (.routine p) ∧ p.kind = .function := by
  have hcheck : ((compileObject "/a" "int f(){return function(){return ::f();};}").toOption.bind fun r =>
      (r.code.routineAt? 1).bind fun q => (q.code.routineAt? 0).map Routine.kind) = some .function := by cbv
  cases hr : compileObject "/a" "int f(){return function(){return ::f();};}" with
  | error e =>
    rw [hr] at hcheck
    cases hcheck
  | ok r =>
    rw [hr] at hcheck
    obtain ⟨q, hq, hcheck⟩ := Option.bind_eq_some_iff.mp (show (r.code.routineAt? 1).bind _ = _ from hcheck)
    obtain ⟨p, hp, hkind⟩ := Option.map_eq_some_iff.mp hcheck
    exact ⟨r, q, p, rfl, Code.constants_of_routineAt? hq, Code.constants_of_routineAt? hp, hkind⟩

theorem exists_in_script : ∃ r q, compileScript "main" "var f=function(){return f;};" = .ok r ∧
    r.code.constants[1]? = some (.routine q) ∧ q.kind = .function := by
  have hcheck : ((compileScript "main" "var f=function(){return f;};").toOption.bind fun r =>
      (r.code.routineAt? 1).map Routine.kind) = some .function := by cbv
  cases hr : compileScript "main" "var f=function(){return f;};" with
  | error e =>
    rw [hr] at hcheck
    cases hcheck
  | ok r =>
    rw [hr] at hcheck
    obtain ⟨q, hq, hkind⟩ := Option.map_eq_some_iff.mp hcheck
    exact ⟨r, q, rfl, Code.constants_of_routineAt? hq, hkind⟩

/-- A function in a method that calls the method of the parent, and a function in a script. -/
theorem units_apart_functions :
    (∃ r p, compileObject "/a" "int f(){return function(){return ::f();};}" = .ok r ∧ r.Within p ∧ p.kind = .function ∧
      p.owner = some "/a" ∧ p.ConsistsOf fun op => op.isGlobal = false ∧ op.isConstruction = false) ∧
    ∃ r q, compileScript "main" "var f=function(){return f;};" = .ok r ∧ r.Within q ∧ q.kind = .function ∧
      q.owner = none ∧ q.ConsistsOf fun op => op.isConstruction = false ∧ op.isParental = false := by
  obtain ⟨r, q, p, hr, hq, hp, hkind⟩ := exists_in_method
  obtain ⟨r', q', hr', hq', hkind'⟩ := exists_in_script
  have hwithin : q.Within p := .inside hp .self
  have hwithin' : r'.Within q' := .inside hq' .self
  exact ⟨⟨r, p, hr, .inside hq hwithin, hkind, ((units_apart _ r).1 _ hr).2 _ q hq p hwithin⟩,
    r', q', hr', hwithin', hkind', (units_apart _ r').2 _ hr' q' hwithin'⟩

end Mudscript
