import Mudscript.Proofs.Coding.Shapes
import Mudscript.Proofs.Lawful
import Mudscript.Proofs.Units

/-!
# What generated code is like

Facts about all generated code, by induction over the trees. The operands of its instructions fit into
their bytes, so the code of a routine can be read back as the list of instructions it was written as, and
what they refer to is there. The code of an expression has the form that `Operands` describes, so what it
does to the stack is known. Objects are only made in object units, and nothing in such a unit, however deep,
is about a global variable.

The rest is about the receiver. A function that has its receiver in slot 0 does not assign to that slot,
and the functions inside that capture it do not either.
-/

namespace Mudscript

open Compile (Access)

variable {c : Capture} {b distance index : Nat}

/-! ### What finished code is like -/

/-- Where an instruction may stand: objects are made in object units and nowhere else, there are no
parents outside of them, and no globals inside. -/
def Instruction.Belongs (kind : RoutineKind) (owner : Option String) : Instruction → Prop
  | .object _ | .compile | .inherit | .field _ | .method _ => kind = .object
  | .getGlobal _ | .defineGlobal _ | .setGlobal _ => owner = none
  | .super | .superInvoke _ _ => owner ≠ none
  | _ => True

/-- A routine that has a layout and can be read back. -/
structure Routine.Careful (owner : Option String) (r : Routine) : Prop where
  owner_eq : r.owner = owner
  layout : ∃ shape, r.Layout shape
  belongs : ∀ offset i, r.code.At offset i → i.Belongs r.kind owner
  listing : ∃ is, r.code.Lists is

def Routine.Nested (owner : Option String) (q : Routine) : Prop :=
  ∀ p, q.Within p → p.Careful owner ∧ (p.kind = .function ∨ p.kind = .method)

/-! ### What code under construction is like -/

section

variable {σ σ' : Scopes} {owner : Option String} {i : Instruction}

/-- A capture of a closure over `q`, which is about to be made, is not the receiver if `q` assigns to it. -/
structure Capture.Minds (σ : Scopes) (q : Routine) (j : Nat) (c : Capture) : Prop where
  local_ : c.fromLocal = true → q.Assigns j → ¬ (σ.current.kind.HasReceiver ∧ c.index = 0)
  captured : c.fromLocal = false → q.Assigns j →
    ∃ x, captureName σ.current σ.enclosing c.index = some x ∧ x ≠ receiverName

def Instruction.Minds (σ : Scopes) : Instruction → Prop
  | .setLocal slot => σ.current.kind.HasReceiver → slot ≠ 0
  | .setUpvalue index => ∃ x, captureName σ.current σ.enclosing index = some x ∧ x ≠ receiverName
  | .closure entry captures => ∃ q, σ.current.draft.constants[entry]? = some (.routine q) ∧
      ∀ j (c : Capture), captures[j]? = some c → c.Minds σ q j
  | _ => True

def Instruction.Refers (s : Scope) : Instruction → Prop
  | .constant index => s.toRoutine.HasConstant index Constant.IsLiteral
  | .getUpvalue index | .setUpvalue index => index < s.captures.size
  | .getGlobal name | .defineGlobal name | .setGlobal name | .getProperty name | .setProperty name
  | .invoke name _ | .superInvoke name _ | .object name | .field name | .method name =>
    s.toRoutine.HasConstant name Constant.IsText
  | _ => True

structure Scopes.Suits (σ : Scopes) (i : Instruction) : Prop where
  encodable : i.Encodable σ.current.toRoutine.code
  minds : i.Minds σ
  refers : i.Refers σ.current
  belongs : i.Belongs σ.current.kind σ.current.owner

def Instruction.InScope (s : Scope) : Instruction → Prop
  | .getLocal slot | .setLocal slot => ∃ l, s.localAt? slot = some l ∧ l.isDefined = true
  | .closure _ captures => ∀ c ∈ captures, c.RefersTo s
  | _ => True

structure Scopes.Uses (σ : Scopes) (i : Instruction) : Prop where
  inScope : i.InScope σ.current
  suits : σ.Suits i

structure Scopes.Names (σ : Scopes) (index : Nat) : Prop where
  lt : index < 65536
  isText : σ.current.toRoutine.HasConstant index Constant.IsText

/-- An instruction without operands that may stand anywhere. -/
def Instruction.isBare : Instruction → Bool
  | .pushNil | .pushTrue | .pushFalse | .pop | .dup | .closeUpvalue | .ret | .equal | .notEqual | .greater
  | .greaterEqual | .less | .lessEqual | .add | .subtract | .multiply | .divide | .modulo | .not | .negate => true
  | _ => false

theorem Scopes.Uses.bare (hi : i.isBare = true) : σ.Uses i := by
  cases i <;> first | exact ⟨trivial, trivial, trivial, trivial, trivial⟩ | cases hi

theorem Scopes.Suits.bare (hi : i.isBare = true) : σ.Suits i := (Uses.bare hi).suits

theorem Scopes.Suits.jump (h : distance < 65536) : σ.Suits (.jump distance) :=
  ⟨h, trivial, trivial, trivial⟩

theorem Scopes.Suits.branch (h : distance < 65536) : σ.Suits (.jumpIfFalse distance) :=
  ⟨h, trivial, trivial, trivial⟩

theorem Scopes.Suits.loop (h : distance < 65536) : σ.Suits (.loop distance) :=
  ⟨h, trivial, trivial, trivial⟩

theorem Scopes.Names.getProperty {name : Nat} (h : σ.Names name) : σ.Uses (.getProperty name) :=
  ⟨trivial, h.lt, trivial, h.isText, trivial⟩

namespace Scopes

theorem Retains.captureName (h : σ.Retains σ') {x : String} (hx : captureName σ.current σ.enclosing index = some x) :
    Mudscript.captureName σ'.current σ'.enclosing index = some x :=
  captureName_touched h.captures h.enclosing hx

theorem Retains.otherName (h : σ.Retains σ')
    (hx : ∃ x, Mudscript.captureName σ.current σ.enclosing index = some x ∧ x ≠ receiverName) :
    ∃ x, Mudscript.captureName σ'.current σ'.enclosing index = some x ∧ x ≠ receiverName := by
  obtain ⟨x, hx, hne⟩ := hx
  exact ⟨x, h.captureName hx, hne⟩

theorem Retains.minds {q : Routine} {j : Nat} (h : σ.Retains σ') (hc : c.Minds σ q j) : c.Minds σ' q j :=
  ⟨h.kind_eq.symm ▸ hc.local_, fun hlocal hassigns => h.otherName (hc.captured hlocal hassigns)⟩

theorem Retains.refers (hr : σ.Retains σ') (h : i.Refers σ.current) : i.Refers σ'.current := by
  have hle := hr.captures.length_le
  rw [Array.length_toList, Array.length_toList] at hle
  cases i <;> first | exact hr.hasConstant h | exact Nat.lt_of_lt_of_le h hle | trivial

theorem Names.retains (h : σ.Names index) (hr : σ.Retains σ') : σ'.Names index :=
  ⟨h.lt, hr.hasConstant h.isText⟩

theorem Suits.retains (h : σ.Suits i) (hr : σ.Retains σ') : σ'.Suits i := by
  obtain ⟨hencodable, hminds, hrefers, hbelongs⟩ := h
  have hrefers := hr.refers hrefers
  rw [← hr.kind_eq, ← hr.owner_eq] at hbelongs
  cases i with
  | closure entry captures =>
    obtain ⟨q, hget, hcaptures⟩ := hminds
    have hget' := hr.constants _ _ hget
    refine ⟨⟨hencodable.1, ?_, hencodable.2.2⟩, ⟨q, hget', fun j c hc => hr.minds (hcaptures j c hc)⟩,
      hrefers, hbelongs⟩
    rw [hencodable.2.1, Code.captureCount, Code.captureCount, Code.routineAt?, Code.routineAt?]
    rw [show σ.current.toRoutine.code.constants[entry]? = _ from hget,
      show σ'.current.toRoutine.code.constants[entry]? = _ from hget']
  | setLocal slot => exact ⟨hencodable, fun hkind => hminds (hr.kind_eq ▸ hkind), hrefers, hbelongs⟩
  | setUpvalue index => exact ⟨hencodable, hr.otherName hminds, hrefers, hbelongs⟩
  | _ => exact ⟨hencodable, trivial, hrefers, hbelongs⟩

theorem Uses.follows (h : σ.Uses i) (hf : σ.Follows σ') : σ'.Uses i := by
  refine ⟨?_, h.suits.retains hf.retains⟩
  have hscope := h.inScope
  cases i with
  | getLocal slot | setLocal slot =>
    obtain ⟨l, hget, hdefined⟩ := hscope
    obtain ⟨l', hget', hmarked⟩ := hf.current.localAt? hget
    exact ⟨l', hget', hmarked.isDefined_eq.trans hdefined⟩
  | closure entry captures => exact fun c hc => (hscope c hc).follows hf.current
  | _ => trivial

/-- What holds at every point while code is generated for a unit: only slot 0 may have the name of the
receiver, and the routines in the pool are complete. -/
structure Tidy (owner : Option String) (σ : Scopes) : Prop extends σ.Settled where
  owner_eq : σ.current.owner = owner
  inObject_eq : σ.inObject = owner.isSome
  script : σ.current.kind = .script → owner = none
  unshadowed : ∀ slot : Nat, σ.current.names.reverse[slot]? = some receiverName → slot = 0
  routines : ∀ (index : Nat) q, σ.current.draft.constants[index]? = some (.routine q) → q.Nested owner

theorem Tidy.of_names (h : σ.Tidy owner) (hs : σ'.Settled) (hr : σ.Retains σ')
    (hnames : σ'.current.names = σ.current.names)
    (hconstants : σ'.current.draft.constants = σ.current.draft.constants) : σ'.Tidy owner := by
  refine ⟨hs, hr.owner_eq.trans h.owner_eq, hr.inObject_eq.trans h.inObject_eq, fun hkind => ?_, ?_, ?_⟩
  · exact h.script (hr.kind_eq.symm.trans hkind)
  · rw [hnames]
    exact h.unshadowed
  · rw [hconstants]
    exact h.routines

theorem Tidy.name_eq_iff (h : σ.Tidy owner) {slot : Nat} {l : Local} (hget : σ.current.localAt? slot = some l) :
    l.name = receiverName ↔ σ.current.kind.HasReceiver ∧ slot = 0 := by
  obtain ⟨l0, hget0, hreceiver, hnone⟩ := h.rooted
  constructor
  · intro hname
    have hzero := h.unshadowed slot (by rw [Scope.getElem?_names hget, hname])
    refine ⟨?_, hzero⟩
    by_contra hkind
    rw [hzero, hget0] at hget
    cases hget
    exact absurd ((hnone hkind).symm.trans hname) (by decide)
  · rintro ⟨hkind, rfl⟩
    rw [hget0] at hget
    cases hget
    exact hreceiver hkind

theorem Tidy.performs (h : σ.Tidy owner) (hp : σ.Performs σ')
    (hroutines : ∀ (index : Nat) q, σ'.current.draft.constants[index]? = some (.routine q) →
      σ.current.draft.constants[index]? = some (.routine q) ∨ q.Nested owner) : σ'.Tidy owner := by
  have hr := hp.follows.retains
  refine ⟨hp.settled, hr.owner_eq.trans h.owner_eq, hr.inObject_eq.trans h.inObject_eq,
    fun hkind => h.script (hr.kind_eq.symm.trans hkind), ?_,
      fun index q hget => (hroutines index q hget).elim (h.routines index q) id⟩
  rw [hp.marks.names_eq]
  exact h.unshadowed

structure Computes (owner : Option String) (σ : Scopes) (is : List Instruction) (n : Nat) : Prop where
  tidy : σ.Tidy owner
  uses : ∀ i ∈ is, σ.Uses i
  operands : Operands is n

end Scopes

theorem Traces.written_eq {r : Routine} {σ τ : Shape} {ps : List Piece} (h : Traces r .closed b σ ps τ) :
    written (ps.map Piece.instruction) = ps := by
  obtain ⟨A, rfl, -, hA⟩ := h
  rw [written, List.map_map]
  refine (List.map_congr_left fun p hp => ?_).trans (List.map_id _)
  obtain ⟨⟨σ', p⟩, hmem, rfl⟩ := List.mem_map.mp hp
  obtain ⟨A1, A2, hsplit⟩ := List.append_of_mem hmem
  have hfine := hA A1 σ' p A2 hsplit
  cases p with
  | write i => rfl
  | break_ => exact hfine.2.elim

theorem Piece.mem_written {is i} : Piece.write i ∈ written is ↔ i ∈ is := by
  simp [written]

structure Scopes.Lays (owner : Option String) (σ : Scopes) (ps : List Piece) : Prop where
  tidy : σ.Tidy owner
  suits : ∀ i, .write i ∈ ps → σ.Suits i

end

namespace Scopes

variable {σ σ' : Scopes} {owner : Option String} {is js : List Instruction} {ps qs : List Piece} {i : Instruction}
  {n k : Nat}

namespace Computes

theorem nil (h : σ.Tidy owner) : σ.Computes owner [] 0 := ⟨h, nofun, .nil⟩

theorem follows (h : σ.Computes owner is n) (hf : σ.Follows σ') (ht : σ'.Tidy owner) : σ'.Computes owner is n :=
  ⟨ht, fun i hi => (h.uses i hi).follows hf, h.operands⟩

theorem append (h : σ.Computes owner is n) (h' : σ.Computes owner js k) : σ.Computes owner (is ++ js) (n + k) :=
  ⟨h.tidy, List.forall_mem_append.mpr ⟨h.uses, h'.uses⟩, h.operands.append h'.operands⟩

theorem operation (h : σ.Computes owner is (n + i.taken)) (hi : i.operates = true) (hs : σ.Uses i) :
    σ.Computes owner (is ++ [i]) (n + i.given) :=
  ⟨h.tidy, List.forall_mem_append.mpr ⟨h.uses, List.forall_mem_singleton.mpr hs⟩, h.operands.operation hi⟩

theorem singleton (h : σ.Tidy owner) (hi : i.operates = true) (htaken : i.taken = 0) (hs : σ.Uses i) :
    σ.Computes owner [i] i.given := ⟨h, List.forall_mem_singleton.mpr hs, .singleton hi htaken⟩

end Computes

namespace Lays

theorem nil (h : σ.Tidy owner) : σ.Lays owner [] := ⟨h, nofun⟩

theorem retains (h : σ.Lays owner ps) (hr : σ.Retains σ') (ht : σ'.Tidy owner) : σ'.Lays owner ps :=
  ⟨ht, fun i hi => (h.suits i hi).retains hr⟩

theorem append (h : σ.Lays owner ps) (h' : σ.Lays owner qs) : σ.Lays owner (ps ++ qs) := by
  refine ⟨h.tidy, fun i hi => ?_⟩
  rcases List.mem_append.mp hi with hi | hi
  · exact h.suits i hi
  · exact h'.suits i hi

theorem plain (h : σ.Tidy owner) (hs : ∀ i ∈ is, σ.Suits i) : σ.Lays owner (written is) :=
  ⟨h, fun i hi => hs i (Piece.mem_written.mp hi)⟩

end Lays

theorem Computes.lays (h : σ.Computes owner is n) : σ.Lays owner (written is) :=
  .plain h.tidy fun i hi => (h.uses i hi).suits

end Scopes

/-! ### Generating, one step at a time -/

namespace Generate

variable {α β : Type} {g : Generate α} {k : α → Generate β} {σ : Scopes}

/-- What holds of the answer and the scopes, if there is no mistake. -/
def Ensures (g : Generate α) (σ : Scopes) (Q : α → Scopes → Prop) : Prop := ∀ a σ', g σ = .ok (a, σ') → Q a σ'

namespace Ensures

variable {Q : α → Scopes → Prop} {R : β → Scopes → Prop}

theorem bind (hg : Ensures g σ Q) (hk : ∀ a σ', Q a σ' → Ensures (k a) σ' R) : Ensures (g >>= k) σ R := by
  intro b σ'' hb
  cases hresult : g σ with
  | error m =>
    rw [bind_eq_of_error hresult] at hb
    cases hb
  | ok r =>
    obtain ⟨a, σ'⟩ := r
    rw [bind_eq_of_ok hresult] at hb
    exact hk a σ' (hg a σ' hresult) b σ'' hb

theorem pure {a : α} (h : Q a σ) : Ensures (Pure.pure a) σ Q := by
  rintro _ _ ⟨⟩
  exact h

theorem throw {m : Mistake} : Ensures (throw m : Generate α) σ Q := by
  intro a σ' h
  cases h

theorem look {k} (h : Ensures (k σ) σ R) : Ensures (get >>= k) σ R := h

theorem modify {f k} (h : Ensures (k ()) (f σ) R) : Ensures (modify f >>= k) σ R := h

theorem mono {Q' : α → Scopes → Prop} (h : Ensures g σ Q) (hle : ∀ a σ', Q a σ' → Q' a σ') : Ensures g σ Q' :=
  fun a σ' ha => hle a σ' (h a σ' ha)

theorem ite {c : Prop} [Decidable c] {g'} (h : c → Ensures g σ Q) (h' : ¬ c → Ensures g' σ Q) :
    Ensures (if c then g else g') σ Q := by
  split
  · exact h ‹_›
  · exact h' ‹_›

theorem forward (distance : Nat) : Ensures (Generate.forward distance) σ fun d σ' =>
    d = distance ∧ distance < 65536 ∧ σ = σ' := by
  intro d σ' h
  rw [forward_apply] at h
  split at h
  · rename_i hle
    cases h
    exact ⟨rfl, Nat.lt_succ_of_le hle, rfl⟩
  · cases h

theorem backward (distance : Nat) : Ensures (Generate.backward distance) σ fun d σ' =>
    d = distance ∧ distance < 65536 ∧ σ = σ' := by
  intro d σ' h
  rw [backward_apply] at h
  split at h
  · rename_i hle
    cases h
    exact ⟨rfl, Nat.lt_succ_of_le hle, rfl⟩
  · cases h

end Ensures

end Generate

structure Scopes.Coded (owner : Option String) (σ : Scopes) (is : List Instruction) (n : Nat) (σ' : Scopes) :
    Prop where
  performs : σ.Performs σ'
  computes : σ'.Computes owner is n

namespace Scopes.Coded

variable {owner : Option String} {σ σ1 σ' : Scopes} {is js : List Instruction} {i : Instruction} {n k : Nat}

theorem tidy (h : σ.Coded owner is n σ') : σ'.Tidy owner := h.computes.tidy

theorem follows (h : σ.Coded owner is n σ') : σ.Follows σ' := h.performs.follows

theorem append (h : σ.Coded owner is n σ1) (h' : σ1.Coded owner js k σ') : σ.Coded owner (is ++ js) (n + k) σ' :=
  ⟨h.performs.trans h'.performs, (h.computes.follows h'.follows h'.tidy).append h'.computes⟩

theorem andThen (h : σ.Coded owner is n σ1) (he : σ1.Performs σ') (ht : σ'.Tidy owner) :
    σ.Coded owner is n σ' := ⟨h.performs.trans he, h.computes.follows he.follows ht⟩

theorem after (he : σ.Performs σ1) (h : σ1.Coded owner is n σ') : σ.Coded owner is n σ' :=
  ⟨he.trans h.performs, h.computes⟩

theorem operation (h : σ.Coded owner is (n + i.taken) σ') (hi : i.operates = true) (hs : σ'.Uses i) :
    σ.Coded owner (is ++ [i]) (n + i.given) σ' := ⟨h.performs, h.computes.operation hi hs⟩

end Scopes.Coded

/-! ### The stack under expressions -/

section

variable {σ σ' : Scopes} {owner : Option String} {r q : Routine} {m n h j : Nat} {captured : Set Nat}

/-- What a capture of a new closure refers to. A named function may be a local of its own, which comes to be
when the closure is made. -/
theorem Capture.allowed (hσ : σ.Settled) (hr : r.Extends σ) (hsees : σ.Sees m)
    (hnew : m = n ∨ m = n + 1 ∧ n = h ∧ q.kind = .function ∧ q.name ≠ "") (hrefers : c.RefersTo σ.current)
    (hminds : c.Minds σ q j) : c.Allowed r q (.above n captured h) j := by
  unfold Capture.RefersTo at hrefers
  unfold Capture.Allowed
  split
  · rename_i hlocal
    rw [if_pos hlocal] at hrefers
    obtain ⟨l, hget, hdefined, _, hname⟩ := hrefers
    have hlt := hsees.lt _ _ hget hdefined
    refine ⟨?_, fun hzero => ?_, fun hobject hassigns => ?_⟩
    · rcases hnew with rfl | ⟨rfl, rfl, hkind, hname'⟩
      · exact .inl hlt
      · rcases Nat.lt_succ_iff_lt_or_eq.mp hlt with hlt | heq
        · exact .inl hlt
        · exact .inr ⟨heq, rfl, hkind, hname'⟩
    · obtain ⟨l0, hget0, _, hnone⟩ := hσ.rooted
      rw [hr.kind_eq]
      by_contra hnot
      rw [hzero, hget0] at hget
      cases hget
      exact hname (hnone hnot)
    · rw [hr.kind_eq] at hobject
      have hone := hsees.object hobject
      exact hminds.local_ hlocal hassigns ⟨.inr hobject, by omega⟩
  · rename_i hlocal
    rw [if_neg hlocal] at hrefers
    exact Nat.lt_of_lt_of_le hrefers hr.captures_le

namespace Scopes

theorem Uses.closure_allowed {captures} (hu : σ.Uses (.closure index captures))
    (hσ : σ.Settled) (hr : r.Extends σ) (hsees : σ.Sees m)
    (hnew : m = n ∨ m = n + 1 ∧ n = h ∧ ∃ q, σ.current.draft.constants[index]? = some (.routine q) ∧
      q.kind = .function ∧
      q.name ≠ "") : (Instruction.closure index captures).OperandsAllowed r (.above n captured h) := by
  obtain ⟨q, hget, hminds⟩ := hu.suits.minds
  refine ⟨q, hr.constants _ _ hget, ?_, fun j c hc => ?_⟩
  · have hcount := hu.suits.encodable.2.1
    rw [Code.captureCount, Code.routineAt?, show σ.current.toRoutine.code.constants[index]? = _ from hget] at hcount
    exact hcount
  · refine Capture.allowed hσ hr hsees (hnew.imp_right ?_) (hu.inScope c (List.mem_of_getElem? hc)) (hminds j c hc)
    rintro ⟨hm, hn, q', hget', hkind, hname⟩
    rw [hget] at hget'
    cases hget'
    exact ⟨hm, hn, hkind, hname⟩

theorem Uses.mem_captured {i : Instruction} {k : Nat} (hu : σ.Uses i) (hsees : σ.Sees n) (hk : ⟨true, k⟩ ∈ i.captures) :
    k < n ∧ σ.current.Flagged k := by
  cases i with
  | closure index captures =>
    obtain ⟨l, hget, hdefined, hcaptured, _⟩ := hu.inScope _ hk
    exact ⟨hsees.lt _ _ hget hdefined, l, hget, hcaptured⟩
  | _ => cases hk

theorem Uses.bears {i : Instruction} (hu : σ.Uses i) (hσ : σ.Settled) (hr : r.Extends σ) (hsees : σ.Sees n) :
    i.Bears r n {k | k < n ∧ (k ∈ captured ∨ σ.current.Flagged k)} := by
  have hconstant : ∀ {index : Nat} {p : Constant → Prop}, σ.current.toRoutine.HasConstant index p →
      r.HasConstant index p := fun ⟨c, hget, hc⟩ => ⟨c, hr.constants _ _ hget, hc⟩
  refine ⟨fun h _ => ?_, fun k hk => (hu.mem_captured hsees hk).imp_right .inr⟩
  have hrefers := hu.suits.refers
  cases i with
  | getLocal slot =>
    obtain ⟨l, hget, hdefined⟩ := hu.inScope
    exact hsees.lt _ _ hget hdefined
  | setLocal slot =>
    obtain ⟨l, hget, hdefined⟩ := hu.inScope
    have hlt := hsees.lt _ _ hget hdefined
    refine ⟨hlt, fun hobject => ?_⟩
    rw [hr.kind_eq] at hobject
    have hone := hsees.object hobject
    exact hu.suits.minds (.inr hobject) (by omega)
  | getUpvalue index | setUpvalue index => exact Nat.lt_of_lt_of_le hrefers hr.captures_le
  | closure index captures => exact hu.closure_allowed hσ hr hsees (.inl rfl)
  | constant _ | getGlobal _ | defineGlobal _ | setGlobal _ | getProperty _ | setProperty _ | invoke _ _
  | superInvoke _ _ | object _ | field _ | method _ => exact hconstant hrefers
  | _ => trivial

theorem Uses.traces_closure {w : Ways} {captures} (hu : σ.Uses (.closure index captures))
    (hσ : σ.Settled) (hr : r.Extends σ) (hsees : σ.Sees m) (hpos : 0 < n) (hle : n ≤ h)
    (hnew : m = n ∨ m = n + 1 ∧ n = h ∧ ∃ q, σ.current.draft.constants[index]? = some (.routine q) ∧
      q.kind = .function ∧
      q.name ≠ "") : Traces r w b (σ.current.shape captured n h) [.write (.closure index captures)]
      { σ.current.shape captured m (h + 1) with top := some .function } := by
  have hnm : n ≤ m := by omega
  refine .plain (Scope.shape_proper hpos hle) ⟨hu.closure_allowed hσ hr hsees hnew, hle⟩ (fun _ => rfl)
    ⟨rfl, (Nat.min_le_left _ _).trans hnm, ?_, .inr rfl⟩
  rintro k (⟨⟨hk, hk'⟩, _⟩ | hk)
  · exact ⟨Nat.lt_of_lt_of_le hk hnm, hk'⟩
  · exact (hu.mem_captured hsees hk).imp_right .inr

theorem Coded.pushes {is} {k : Nat} (hc : σ.Coded owner is k σ') : σ.Pushes is k σ' := by
  intro r w b captured n h hr hsees hpos hle
  have hbears : ∀ i ∈ is, i.Bears r n {k | k < n ∧ (k ∈ captured ∨ σ'.current.Flagged k)} :=
    fun i hi => (hc.computes.uses i hi).bears hc.tidy.toSettled hr hsees
  have htraces := hc.computes.operands.traces hpos (fun k hk => hk.1) hbears (w := w) (b := b) hle
  exact htraces.weaken (hc.follows.current.shape_flows captured n h) (.refl _)

end Scopes

end

/-! ### Constants and names -/

namespace Generate

open Scopes

variable {owner : Option String} {σ : Scopes}

theorem pool?_of_pool {k} {σ' : Scopes} (h : pool k σ = .ok (index, σ')) : σ.pool? k = some (index, σ') := by
  rw [pool_apply] at h
  unfold Scopes.pool?
  generalize σ.current.draft.addConstant k = added at h ⊢
  obtain ⟨result, d⟩ := added
  cases result with
  | ok index =>
    cases h
    rfl
  | error e => cases h

theorem Ensures.pool {k} (hσ : σ.Tidy owner) (hk : ∀ q, k = .routine q → q.Nested owner) :
    Ensures (Generate.pool k) σ fun index σ' =>
      σ.Performs σ' ∧ σ'.Tidy owner ∧ σ'.current.draft.constants[index]? = some k ∧ index < 65536 := by
  intro index σ' h
  have hpool := pool?_of_pool h
  have he := (pool?_writes hσ.toSettled hpool).performs hσ.toSettled
  have hget := pool?_get hσ.toSettled hpool
  have hadds := Draft.addConstant_adds (hσ.fits _ List.mem_cons_self).pooled (pool?_adds hpool).2
  refine ⟨he, hσ.performs he fun index q hq => ?_, hget, ?_⟩
  · rcases hadds.only index _ hq with hold | hnew
    · exact .inl hold
    · exact .inr (hk q hnew.symm)
  · exact he.settled.lt_of_hasConstant (p := fun _ => True) ⟨_, hget, trivial⟩

theorem Ensures.text (x : String) (hσ : σ.Tidy owner) : Ensures (Generate.pool (.text x)) σ fun index σ' =>
    σ.Performs σ' ∧ σ'.Tidy owner ∧ σ'.current.draft.constants[index]? = some (.text x) ∧ index < 65536 :=
  .pool hσ fun _ h => Constant.noConfusion h

theorem Ensures.name (x : String) (hσ : σ.Tidy owner) :
    Ensures (Generate.pool (.text x)) σ fun index σ' => σ.Performs σ' ∧ σ'.Tidy owner ∧ σ'.Names index :=
  (Ensures.text x hσ).mono fun _ _ h => ⟨h.1, h.2.1, h.2.2.2, _, h.2.2.1, x, rfl⟩

theorem resolves_of_resolve {x : String} {access : Access} {σ' : Scopes} (h : resolve x σ = .ok (access, σ')) :
    Resolves σ x access σ' := by
  rw [resolve_apply] at h
  split at h
  · cases h
  · rename_i hslot
    cases h
    exact .local_ hslot
  · rename_i hslot
    split at h
    · cases h
    · rename_i hfound
      cases h
      exact .upvalue hslot hfound
    · rename_i σ1 hfound
      cases hpool : Generate.pool (.text x) σ1 with
      | error m =>
        rw [bind_eq_of_error hpool] at h
        cases h
      | ok r =>
        obtain ⟨index, σ2⟩ := r
        rw [bind_eq_of_ok hpool] at h
        have hpool' := pool?_of_pool hpool
        change Except.ok (if σ2.inObject = true then Access.property index else Access.global index, σ2) = _ at h
        cases hobject : σ2.inObject with
        | true =>
          rw [hobject] at h
          cases h
          exact .property hslot hfound hpool' hobject
        | false =>
          rw [hobject] at h
          cases h
          exact .global hslot hfound hpool' hobject

theorem Resolves.tidy {x : String} {access : Access} {σ' : Scopes} (h : Resolves σ x access σ') (hx : x ≠ "")
    (hσ : σ.Tidy owner) : σ'.Tidy owner := by
  refine hσ.performs (h.performs hσ.toSettled hx) fun index q hq => .inl ?_
  have hpooled : ∀ {s s' : Scopes} {index' : Nat}, s.Settled → s.pool? (.text x) = some (index', s') →
      s'.current.draft.constants[index]? = some (.routine q) →
        s.current.draft.constants[index]? = some (.routine q) := by
    intro s s' index' hs hpool hq
    have hadds := Draft.addConstant_adds (hs.fits _ List.mem_cons_self).pooled (pool?_adds hpool).2
    rcases hadds.only index _ hq with hold | hnew
    · exact hold
    · cases hnew
  cases h with
  | local_ _ => exact hq
  | upvalue _ hfound =>
    rw [(performs_of_upvalue? hσ.toSettled hx hfound).2.1] at hq
    exact hq
  | property _ hfound hpool _ | global _ hfound hpool _ =>
    obtain ⟨he, hdraft, _⟩ := performs_of_upvalue? hσ.toSettled hx hfound
    have hq1 := hpooled he.settled hpool hq
    rwa [hdraft] at hq1

theorem Ensures.resolve {x : String} (hx : x ≠ "") (hσ : σ.Tidy owner) : Ensures (Generate.resolve x) σ fun access σ' =>
      Resolves σ x access σ' ∧ σ.Performs σ' ∧ σ'.Tidy owner ∧ access.Valid σ' x := by
  intro access σ' h
  have hresolves := resolves_of_resolve h
  exact ⟨hresolves, hresolves.performs hσ.toSettled hx, Resolves.tidy hresolves hx hσ,
    hresolves.valid hσ.toSettled hx⟩

end Generate

namespace Compile.Access.Valid

variable {owner : Option String} {σ : Scopes} {x : String} {access : Access}

theorem belongs (h : (Access.global index).Valid σ x) (hσ : σ.Tidy owner) : σ.current.owner = none := by
  rw [hσ.owner_eq, ← Option.isSome_eq_false_iff.trans Option.isNone_iff_eq_none, ← hσ.inObject_eq]
  exact h.2

theorem get (h : access.Valid σ x) (hσ : σ.Tidy owner) (hkind : access.isProperty = false) :
    σ.Computes owner [access.get] 1 := by
  have hfits := hσ.fits _ List.mem_cons_self
  cases access with
  | local_ slot =>
    obtain ⟨l, hget, _, hdefined⟩ := h
    exact .singleton hσ rfl rfl
      ⟨⟨l, hget, hdefined⟩, Nat.lt_of_lt_of_le (Scope.lt_of_localAt? hget) hfits.locals, trivial,
      trivial, trivial⟩
  | upvalue index =>
    have hlt := lt_of_captureName h
    exact .singleton hσ rfl rfl ⟨trivial, Nat.lt_of_lt_of_le hlt hfits.captures, trivial, hlt, trivial⟩
  | property index => cases hkind
  | global index =>
    exact .singleton hσ rfl rfl ⟨trivial, hσ.lt_of_hasConstant h.1, trivial, h.1, h.belongs hσ⟩

theorem set_operates (hkind : access.isProperty = false) :
    access.set.operates = true ∧ access.set.taken = 1 ∧ access.set.given = 1 := by
  cases access with
  | property _ => cases hkind
  | _ => exact ⟨rfl, rfl, rfl⟩

theorem set_uses (h : access.Valid σ x) (hσ : σ.Tidy owner) (hx : IsName x) (hkind : access.isProperty = false) :
    σ.Uses access.set := by
  have hfits := hσ.fits _ List.mem_cons_self
  cases access with
  | local_ slot =>
    obtain ⟨l, hget, hl, hdefined⟩ := h
    refine ⟨⟨l, hget, hdefined⟩, Nat.lt_of_lt_of_le (Scope.lt_of_localAt? hget) hfits.locals, fun hreceiver hzero => ?_,
      trivial, trivial⟩
    exact hx.2 (hl.symm.trans ((hσ.name_eq_iff hget).mpr ⟨hreceiver, hzero⟩))
  | upvalue index =>
    have hlt := lt_of_captureName h
    exact ⟨trivial, Nat.lt_of_lt_of_le hlt hfits.captures, ⟨x, h, hx.2⟩, hlt, trivial⟩
  | property index => cases hkind
  | global index => exact ⟨trivial, hσ.lt_of_hasConstant h.1, trivial, h.1, h.belongs hσ⟩

end Compile.Access.Valid

/-! ### The receiver -/

namespace Generate

open Scopes

variable {owner : Option String} {σ : Scopes}

theorem Ensures.receiver (hσ : σ.Tidy owner) :
    Ensures Generate.receiver σ fun is σ' => ∃ load, is = [load] ∧ σ.Coded owner [load] 1 σ' := by
  refine (Ensures.resolve (x := receiverName) (by decide) hσ).bind ?_
  rintro access σ' ⟨-, he, ht, hvalid⟩
  cases access with
  | local_ _ | upvalue _ => exact .pure ⟨_, rfl, he, hvalid.get ht rfl⟩
  | property _ | global _ => exact .throw

theorem Ensures.onName {x : String} {variable_ property} {Q : List Instruction → Scopes → Prop} (hx : x ≠ "")
    (hσ : σ.Tidy owner)
    (hvariable : ∀ access σ', σ.Performs σ' → σ'.Tidy owner → access.Valid σ' x → access.isProperty = false →
      Ensures (variable_ access) σ' Q) (hproperty : ∀ name load σ', σ.Coded owner [load] 1 σ' → σ'.Names name →
      Ensures (property name) σ' fun is σ'' => Q (load :: is) σ'') :
    Ensures (Generate.onName x variable_ property) σ Q := by
  refine (Ensures.resolve hx hσ).bind ?_
  rintro access σ' ⟨hresolves, he, ht, hvalid⟩
  cases access with
  | property name =>
    refine (Ensures.receiver ht).bind ?_
    rintro _ σ'' ⟨load, rfl, h⟩
    refine (hproperty name load σ'' (.after he h) ?_).bind fun is σ3 hQ => ?_
    · exact Names.retains ⟨ht.lt_of_hasConstant hvalid, hvalid⟩ h.follows.retains
    · exact .pure hQ
  | local_ slot => exact hvariable (.local_ slot) σ' he ht hvalid rfl
  | upvalue index => exact hvariable (.upvalue index) σ' he ht hvalid rfl
  | global name => exact hvariable (.global name) σ' he ht hvalid rfl

end Generate

end Mudscript
