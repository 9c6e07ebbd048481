import Mudscript.Proofs.Coding.Units
import Mudscript.Proofs.Constructions
import Mudscript.Proofs.Histories

/-!
# Declared members

The code of an object unit declares one member after the other, and while the value of a field is computed
anything may happen: functions are called, other units run, and the object that is being made is changed
through its properties. All the same, the members that the object has at some point are those that the unit
has declared by then, in the order in which it declares them.
-/

namespace Mudscript

open Machine Exec List

variable {value : Clause} {parts : List (List Instruction)} {paths : List String} {member : Member}
    {name offset : Nat}

/-! ### Places in the code of a unit -/

theorem Contained.continues {is} (h : Contained is) {code : Code} {here target : Nat}
    {i : Instruction} (hholds : code.Holds offset is) (hat : code.At here i) (hle : offset ≤ here)
    (hlt : here < offset + Code.length is) (hcontinues : i.Continues (here + i.size) target) :
    i.evaluates = true ∧ here < target ∧ target ≤ offset + Code.length is := by
  obtain ⟨front, back, rfl, rfl⟩ := hholds.exists_split hat hle hlt
  obtain ⟨hevaluates, hfar⟩ := h.of_split
  refine ⟨hevaluates, ?_⟩
  have hpos := i.size_pos
  simp only [Code.length_append, Code.length_cons]
  rcases hcontinues with hnear | hjump
  · have heq : target = offset + Code.length front + i.size := by
      cases i <;> cases hnear <;> rfl
    omega
  · cases i with
    | jump distance | jumpIfFalse distance =>
      have hdistance := hfar distance (congrArg some (Nat.zero_add distance))
      cases hjump
      omega
    | loop distance => cases hevaluates
    | _ => cases hjump

namespace UnitCode

variable {code : UnitCode} {c : Code} {j k position : Nat} {part : List Instruction} {i : Instruction}

/-- A call of the unit is at a position at which so many members are declared. -/
structure Reaches (code : UnitCode) (k position : Nat) : Prop where
  le : k ≤ code.members.length
  passed : 0 < k → code.start k ≤ position
  inside : k < code.members.length → position < code.start (k + 1)

theorem start_succ (h : code.members[k]? = some part) : code.start (k + 1) = code.start k + Code.length part := by
  unfold start
  rw [take_add_one, h, Option.toList_some, flatten_append, ← append_assoc, Code.length_append]
  simp

theorem start_le_succ (code : UnitCode) (k : Nat) : code.start k ≤ code.start (k + 1) := by
  cases h : code.members[k]? with
  | some part =>
    rw [start_succ h]
    omega
  | none =>
    unfold start
    rw [take_add_one, h]
    simp

theorem start_mono (code : UnitCode) (h : j ≤ k) : code.start j ≤ code.start k := by
  induction h with
  | refl => exact Nat.le_refl _
  | step _ ih => exact Nat.le_trans ih (code.start_le_succ _)

theorem start_zero (code : UnitCode) : code.start 0 = Code.length code.head := by simp [start]

theorem holds_head (h : c.Lists code.instructions) : c.Holds 0 code.head :=
  (Code.Holds.whole h).left.left

theorem holds_part (h : c.Lists code.instructions) (hpart : code.members[k]? = some part) :
    c.Holds (code.start k) part := by
  obtain ⟨hlt, rfl⟩ := List.getElem?_eq_some_iff.mp hpart
  have hsplit : code.instructions = (code.head ++ (code.members.take k).flatten) ++
      (code.members[k] ++ ((code.members.drop (k + 1)).flatten ++ [.ret])) := by
    unfold instructions
    conv_lhs => rw [← take_append_drop k code.members, drop_eq_getElem_cons hlt]
    simp only [flatten_append, flatten_cons, append_assoc]
  exact ⟨_, _, hsplit ▸ h, rfl⟩

/-- A call that has come to some position is in the head, in the code of the next member, or at the end. -/
theorem Reaches.place (h : code.Reaches k position) (hlists : c.Lists code.instructions) (hat : c.At position i) :
    (k = 0 ∧ position < code.start 0) ∨
      (∃ part, code.members[k]? = some part ∧ code.start k ≤ position ∧ position < code.start k + Code.length part) ∨
      k = code.members.length ∧ position = code.start k ∧ i = .ret := by
  by_cases hhead : position < code.start 0
  · left
    refine ⟨?_, hhead⟩
    by_contra hk
    have hpassed := h.passed (Nat.pos_of_ne_zero hk)
    have hmono := code.start_mono (Nat.zero_le k)
    omega
  right
  have hstart : code.start k ≤ position := by
    cases k with
    | zero => omega
    | succ k => exact h.passed k.succ_pos
  rcases Nat.lt_or_eq_of_le h.le with hlt | rfl
  · left
    have hpart : code.members[k]? = some code.members[k] := List.getElem?_eq_getElem hlt
    exact ⟨_, hpart, hstart, start_succ hpart ▸ h.inside hlt⟩
  · right
    have hholds : c.Holds (code.start code.members.length) [.ret] := by
      refine ⟨code.head ++ code.members.flatten, [], by simpa [instructions] using hlists, ?_⟩
      simp [start]
    have hend : position < code.start code.members.length + Code.length [.ret] := by
      obtain ⟨front, back, hsplit, rfl⟩ := (hlists.at_iff _ i).mp hat
      have hlength := congrArg Code.length hsplit
      have hpos := i.size_pos
      simp only [instructions, Code.length_append, Code.length_cons] at hlength
      simp only [start, take_length, Code.length_append, Code.length_cons]
      omega
    obtain ⟨front, back, hsplit, rfl⟩ := hholds.exists_split hat hstart hend
    cases front with
    | nil =>
      cases hsplit
      exact ⟨rfl, rfl, rfl⟩
    | cons _ front => simp at hsplit

end UnitCode

/-! ### The parts of the code of a unit -/

section

variable {i : Instruction}

theorem Inheriting.place {constants}
    (h : List.Forall₂ (Inheriting constants) paths parts) {code : Code} {position : Nat}
    (hholds : code.Holds offset parts.flatten) (hat : code.At position i) (hle : offset ≤ position)
    (hlt : position < offset + Code.length parts.flatten) :
    ∃ b < paths.length, ((∃ index, i = .constant index) ∧ position = offset + 5 * b) ∨
      (i = .compile ∧ position = offset + 5 * b + 3) ∨ i = .inherit ∧ position = offset + 5 * b + 4 := by
  induction h generalizing offset with
  | nil =>
    simp at hlt
    omega
  | @cons path is paths parts hpart _ ih =>
    obtain ⟨index, rfl, _⟩ := hpart
    have hlength : Code.length [.constant index, .compile, .inherit] = 5 := rfl
    rw [flatten_cons] at hholds hlt
    by_cases hfirst : position < offset + 5
    · refine ⟨0, Nat.succ_pos _, ?_⟩
      obtain ⟨front, back, hsplit, rfl⟩ := hholds.left.exists_split hat hle hfirst
      rcases front with _ | ⟨_, _ | ⟨_, _ | ⟨_, front⟩⟩⟩
      · cases hsplit
        exact .inl ⟨⟨index, rfl⟩, rfl⟩
      · cases hsplit
        exact .inr (.inl ⟨rfl, rfl⟩)
      · cases hsplit
        exact .inr (.inr ⟨rfl, rfl⟩)
      · simp at hsplit
    · rw [Code.length_append, hlength] at hlt
      have hrest := hholds.right
      rw [hlength] at hrest
      obtain ⟨b, hb, hplace⟩ := ih hrest (by omega) (by omega)
      refine ⟨b + 1, Nat.succ_lt_succ hb, ?_⟩
      rcases hplace with ⟨hi, rfl⟩ | ⟨hi, rfl⟩ | ⟨hi, rfl⟩
      · exact .inl ⟨hi, by omega⟩
      · exact .inr (.inl ⟨hi, by omega⟩)
      · exact .inr (.inr ⟨hi, by omega⟩)

theorem Inheriting.length_flatten {constants}
    (h : List.Forall₂ (Inheriting constants) paths parts) : Code.length parts.flatten = 5 * paths.length := by
  induction h with
  | nil => rfl
  | cons hpart _ ih =>
    obtain ⟨index, rfl, _⟩ := hpart
    have hlength : Code.length [.constant index, .compile, .inherit] = 5 := rfl
    rw [flatten_cons, Code.length_append, ih, hlength, length_cons]
    omega

theorem Member.Codes.exists_declaration {constants} {part} (h : member.Codes constants part) :
    ∃ initial d, part = initial ++ [d] ∧ Contained initial ∧ ∃ name, d = .field name ∨ d = .method name := by
  cases member with
  | field x value =>
    obtain ⟨initial, name, rfl, _, hinitial, _⟩ := h
    exact ⟨initial, _, rfl, hinitial.contained, name, .inl rfl⟩
  | method x ps body =>
    obtain ⟨index, captures, name, q, rfl, _⟩ := h
    exact ⟨[.closure index captures], _, rfl, .plain rfl rfl trivial, name, .inr rfl⟩

namespace ObjectUnit.Codes

variable {unit : ObjectUnit} {path : String} {code : UnitCode} {r : Routine} {position k : Nat}

section

variable (h : unit.Codes path code r)

include h

theorem start_zero : code.start 0 = 3 + 5 * unit.parents.length := by
  obtain ⟨name, parents, hhead, _, hparents⟩ := h.head
  rw [code.start_zero, hhead, Code.length_cons, Inheriting.length_flatten hparents]
  rfl

theorem length_eq : unit.members.length = code.members.length := h.members.length_eq

theorem head_place (hat : r.code.At position i) (hne : position ≠ 0) (hlt : position < code.start 0) :
    ∃ b < unit.parents.length, ((∃ index, i = .constant index) ∧ position = 3 + 5 * b) ∨
      (i = .compile ∧ position = 3 + 5 * b + 3) ∨ i = .inherit ∧ position = 3 + 5 * b + 4 := by
  have hholds := UnitCode.holds_head h.lists
  rw [code.start_zero] at hlt
  obtain ⟨name, parents, hhead, _, hparents⟩ := h.head
  rw [hhead] at hholds hlt
  have hsize : (Instruction.object name).size = 3 := rfl
  have hrest : r.code.Holds 3 parents.flatten := by
    have htail := hholds.tail
    rwa [hsize, Nat.zero_add] at htail
  have hle : 3 ≤ position := by
    by_contra hsmall
    have hsplit : r.code.Holds 0 ([.object name] ++ parents.flatten) := hholds
    obtain ⟨front, back, hsplit, hposition⟩ := hsplit.left.exists_split hat (Nat.zero_le _)
      (by simp only [Code.length_cons, Code.length_nil, hsize]; omega)
    cases front with
    | nil => exact hne hposition
    | cons _ front => simp at hsplit
  rw [Code.length_cons, hsize] at hlt
  exact Inheriting.place hparents hrest hat hle hlt

theorem part {part} (hpart : code.members[k]? = some part) :
    ∃ member, unit.members[k]? = some member ∧ member.Codes r.code.constants part := by
  obtain ⟨hk, rfl⟩ := List.getElem?_eq_some_iff.mp hpart
  have hk' : k < unit.members.length := h.length_eq ▸ hk
  exact ⟨unit.members[k], List.getElem?_eq_getElem hk', h.members.get hk' hk⟩

theorem start_lt_succ (hk : k < code.members.length) : code.start k < code.start (k + 1) := by
  have hpart : code.members[k]? = some code.members[k] := List.getElem?_eq_getElem hk
  obtain ⟨member, _, hcodes⟩ := h.part hpart
  obtain ⟨initial, d, hsplit, _⟩ := hcodes.exists_declaration
  have hpos := d.size_pos
  rw [UnitCode.start_succ hpart, hsplit, Code.length_append, Code.length_cons]
  omega

theorem reaches_head (hle : position ≤ code.start 0) : code.Reaches 0 position :=
  ⟨Nat.zero_le _, fun hk => absurd hk (Nat.lt_irrefl 0), fun hlt => Nat.lt_of_le_of_lt hle (h.start_lt_succ hlt)⟩

theorem reaches_start (hk : k ≤ code.members.length) : code.Reaches k (code.start k) :=
  ⟨hk, fun _ => Nat.le_refl _, h.start_lt_succ⟩

end

end ObjectUnit.Codes

end

/-! ### What an object is after some declarations -/

namespace Member

def field? : Member → Option String
  | .field x _ => some x
  | .method _ _ _ => none

def method? : Member → Option String
  | .field _ _ => none
  | .method x _ _ => some x

end Member

/-- The value that a field has in the end, if nothing but its value is changed. -/
def Object.History.settled (x : String) (v : Value) (history : Object.History) : Value :=
  history.foldl (fun v entry => match entry.2 with
    | .assigned y w => if y = x then w else v
    | _ => v) v

namespace UnitCode

variable {code : UnitCode} {c : Closure} {base j : Nat} {x : String} {history : Object.History}
  {object object' : Object} {g : Frame} {change : Object.Change}

/-- A field has the value that was there when the call came to its declaration, or one that was assigned to
it since. -/
def SetsField (code : UnitCode) (c : Closure) (base j : Nat) (x : String) (value : Clause)
    (history : Object.History) (object : Object) : Prop :=
  ∃ before after initial name v,
    history = before ++ (⟨c, code.start j + Code.length initial, base⟩, .field x v) :: after ∧
    code.members[j]? = some (initial ++ [.field name]) ∧ (value = .none → v = .nil) ∧
    (∀ entry ∈ after, ∀ w, entry.2 ≠ .field x w) ∧ object.fields.get? x = some (Object.History.settled x v after)

/-- A method is the function that was made for its declaration. -/
def SetsMethod (code : UnitCode) (c : Closure) (base j : Nat) (x : String) (parameters : List String)
    (history : Object.History) (object : Object) : Prop :=
  ∃ index captures name method, code.members[j]? = some [.closure index captures, .method name] ∧
    c.routine.code.constants[index]? = some (.routine method.routine) ∧ method.routine.kind = .method ∧
    method.routine.name = x ∧ method.routine.arity = parameters.length ∧
    (⟨c, code.start j + (Instruction.closure index captures).size, base⟩, .method x method) ∈ history ∧
    object.methods.get? x = some method

theorem SetsField.more (h : code.SetsField c base j x value history object)
    (hchange : ∀ w, change ≠ .field x w) (hvalue : ∀ v, object.fields.get? x = some v →
      object'.fields.get? x = some (Object.History.settled x v [(g, change)])) :
    code.SetsField c base j x value (history ++ [(g, change)]) object' := by
  obtain ⟨before, after, initial, name, v, hhistory, hcode, hnil, hafter, hget⟩ := h
  refine ⟨before, after ++ [(g, change)], initial, name, v, by simp [hhistory], hcode, hnil, ?_, ?_⟩
  · rw [forall_mem_append, forall_mem_singleton]
    exact ⟨hafter, hchange⟩
  · rw [hvalue _ hget, Object.History.settled, Object.History.settled, Object.History.settled, foldl_append]

theorem SetsMethod.more {parameters} (h : code.SetsMethod c base j x parameters history object)
    (hmethod : object'.methods.get? x = object.methods.get? x) :
    code.SetsMethod c base j x parameters (history ++ [(g, change)]) object' := by
  obtain ⟨index, captures, name, method, hcode, hroutine, hkind, hname, harity, hmem, hget⟩ := h
  exact ⟨index, captures, name, method, hcode, hroutine, hkind, hname, harity, mem_append_left _ hmem,
    hmethod.trans hget⟩

end UnitCode

/-- An object has the members that a unit has declared so far, in the order of their first declarations, and
each is as its last declaration says. -/
structure ObjectUnit.Declares (unit : ObjectUnit) (code : UnitCode) (c : Closure) (base k : Nat)
    (history : Object.History) (object : Object) : Prop where
  field_names : object.fields.names = ((unit.members.take k).filterMap Member.field?).eraseDups
  method_names : object.methods.names = ((unit.members.take k).filterMap Member.method?).eraseDups
  field : ∀ j x value, j < k → unit.members[j]? = some (.field x value) →
    (∀ l, j < l → l < k → unit.members[l]?.bind Member.field? ≠ some x) →
    code.SetsField c base j x value history object
  method : ∀ j x parameters body, j < k → unit.members[j]? = some (.method x parameters body) →
    (∀ l, j < l → l < k → unit.members[l]?.bind Member.method? ≠ some x) →
    code.SetsMethod c base j x parameters history object

namespace ObjectUnit.Declares

variable {unit : ObjectUnit} {code : UnitCode} {c : Closure} {base k : Nat} {history : Object.History}
  {object : Object} {g : Frame} {x : String} {v : Value}

theorem start (unit : ObjectUnit) (code : UnitCode) (c : Closure) (base : Nat) (path : String) :
    unit.Declares code c base 0 [] { name := path } :=
  ⟨rfl, rfl, fun _ _ _ hj => absurd hj (Nat.not_lt_zero _), fun _ _ _ _ hj => absurd hj (Nat.not_lt_zero _)⟩

theorem assigned (h : unit.Declares code c base k history object) (hx : (object.fields.get? x).isSome) :
    unit.Declares code c base k (history ++ [(g, .assigned x v)]) (object.putField x v) := by
  refine ⟨(Members.names_put_of_isSome hx v).trans h.field_names, h.method_names,
    fun j y value hj hmember hlast => (h.field j y value hj hmember hlast).more (fun _ => nofun) fun w hw => ?_,
    fun j y ps body hj hmember hlast => (h.method j y ps body hj hmember hlast).more rfl⟩
  show (object.fields.put x v).get? y = some (if x = y then v else w)
  by_cases heq : x = y
  · subst heq
    rw [if_pos rfl, Members.get?_put_self]
  · rw [if_neg heq, Members.get?_put_of_ne _ heq, hw]

theorem inherited (h : unit.Declares code c base k history object) (p : ObjectId) :
    unit.Declares code c base k (history ++ [(g, .parent p)]) { object with parent := some p } :=
  ⟨h.field_names, h.method_names,
    fun j y value hj hmember hlast => (h.field j y value hj hmember hlast).more (fun _ => nofun) fun _ hw => hw,
    fun j y ps body hj hmember hlast => (h.method j y ps body hj hmember hlast).more rfl⟩

theorem filterMap_take_succ (pick : Member → Option String) {ms : List Member} (h : ms[k]? = some member) :
    (ms.take (k + 1)).filterMap pick = (ms.take k).filterMap pick ++ (pick member).toList := by
  rw [take_add_one, h, Option.toList_some, filterMap_append]
  cases hpick : pick member <;> simp [hpick]

theorem declareField (h : unit.Declares code c base k history object) {initial}
    (hmember : unit.members[k]? = some (.field x value))
    (hcode : code.members[k]? = some (initial ++ [.field name])) (hnil : value = .none → v = .nil) :
    unit.Declares code c base (k + 1) (history ++ [(⟨c, code.start k + Code.length initial, base⟩, .field x v)])
      (object.putField x v) := by
  refine ⟨?_, ?_, fun j y value' hj hmember' hlast => ?_, fun j y ps body hj hmember' hlast => ?_⟩
  · rw [filterMap_take_succ _ hmember]
    exact Members.names_put_of_eq h.field_names x v
  · rw [filterMap_take_succ _ hmember]
    show object.methods.names = _
    rw [h.method_names, Member.method?, Option.toList_none, append_nil]
  · rcases Nat.lt_or_eq_of_le (Nat.le_of_lt_succ hj) with hlt | rfl
    · have hne : x ≠ y := by
        rintro rfl
        exact hlast k hlt k.lt_succ_self (by rw [hmember]; rfl)
      refine (h.field j y value' hlt hmember' fun l hl hk => hlast l hl (Nat.lt_succ_of_lt hk)).more ?_ fun w hw => ?_
      · rintro _ ⟨⟩
        exact hne rfl
      · exact (Members.get?_put_of_ne _ hne v).trans hw
    · cases hmember.symm.trans hmember'
      exact ⟨history, [], initial, name, v, rfl, hcode, hnil, nofun, Members.get?_put_self _ _ _⟩
  · rcases Nat.lt_or_eq_of_le (Nat.le_of_lt_succ hj) with hlt | rfl
    · exact (h.method j y ps body hlt hmember' fun l hl hk => hlast l hl (Nat.lt_succ_of_lt hk)).more rfl
    · cases hmember.symm.trans hmember'

theorem declareMethod (h : unit.Declares code c base k history object) {parameters : List String} {body}
    {index : Nat} {captures} {method : Closure} (hmember : unit.members[k]? = some (.method x parameters body))
    (hcode : code.members[k]? = some [.closure index captures, .method name])
    (hroutine : c.routine.code.constants[index]? = some (.routine method.routine))
    (hkind : method.routine.kind = .method) (hname : method.routine.name = x)
    (harity : method.routine.arity = parameters.length) : unit.Declares code c base (k + 1)
      (history ++ [(⟨c, code.start k + (Instruction.closure index captures).size, base⟩, .method x method)])
      (object.putMethod x method) := by
  refine ⟨?_, ?_, fun j y value' hj hmember' hlast => ?_, fun j y ps body hj hmember' hlast => ?_⟩
  · rw [filterMap_take_succ _ hmember]
    show object.fields.names = _
    rw [h.field_names, Member.field?, Option.toList_none, append_nil]
  · rw [filterMap_take_succ _ hmember]
    exact Members.names_put_of_eq h.method_names x method
  · rcases Nat.lt_or_eq_of_le (Nat.le_of_lt_succ hj) with hlt | rfl
    · refine (h.field j y value' hlt hmember' fun l hl hk => hlast l hl (Nat.lt_succ_of_lt hk)).more ?_ fun w hw => hw
      exact fun _ => nofun
    · cases hmember.symm.trans hmember'
  · rcases Nat.lt_or_eq_of_le (Nat.le_of_lt_succ hj) with hlt | rfl
    · have hne : x ≠ y := by
        rintro rfl
        exact hlast k hlt k.lt_succ_self (by rw [hmember]; rfl)
      refine (h.method j y ps body hlt hmember' fun l hl hk => hlast l hl (Nat.lt_succ_of_lt hk)).more ?_
      exact Members.get?_put_of_ne _ hne _
    · cases hmember.symm.trans hmember'
      exact ⟨index, captures, name, method, hcode, hroutine, hkind, hname, harity, by simp,
        Members.get?_put_self _ _ _⟩

end ObjectUnit.Declares

end Mudscript
