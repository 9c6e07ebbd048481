import Mudscript.Proofs.Recognition.Statement

/-!
# Object units

The trees of object units, the tokens they are written with and the code they stand for, and what the
compiler makes of them: the unit of a path compiles to the routine that is generated from its tree, and a
unit that compiles has a tree.

A unit names the objects it inherits from and declares its members. The fields of one declaration are
members of their own. The code of a unit makes the object, gives it its parents and declares one member
after the other, so it falls into a head and a part for each member.
-/

namespace Mudscript

open Generate (pool)
open List

variable {path x : String}

/-! ### Trees and tokens -/

inductive Member
  | field (x : String) (value : Clause)
  | method (x : String) (parameters : List String) (body : Declarations)

namespace Member

def name : Member → String
  | .field x _ | .method x _ _ => x

end Member

structure ObjectUnit where
  /-- The paths behind `inherit`. -/
  parents : List String
  members : List Member

def Declarators.fields : Declarators → List Member
  | .nil => []
  | .cons x value rest => .field x value :: rest.fields

/-- The tokens of the lines that say what a unit inherits from. -/
def inheritTokens : List String → List TokenKind
  | [] => []
  | path :: rest => .keyword .inherit :: .text path :: .symbol .semicolon :: inheritTokens rest

inductive DerivesMembers : List Member → List TokenKind → Prop
  | nil : DerivesMembers [] []
  | fields {type : TypeName} {vs : Declarators} {rest : List Member} {ts us} :
      Derives true .variables vs ts → DerivesMembers rest us →
      DerivesMembers (vs.fields ++ rest) (.type type :: (ts ++ .symbol .semicolon :: us))
  | method {type : TypeName} {x} {ps : List String} {body : Declarations} {rest : List Member} {ts us} :
      IsName x → Derives true .function (ps, body) ts → DerivesMembers rest us →
      DerivesMembers (.method x ps body :: rest) (.type type :: .name x :: (ts ++ us))

def ObjectUnit.Derives (unit : ObjectUnit) (ts : List TokenKind) : Prop :=
  ∃ us, ts = inheritTokens unit.parents ++ us ∧ DerivesMembers unit.members us

/-! ### Code -/

namespace Generate

def inheritance (path : String) : Generate (List Instruction) :=
  return [.constant (← pool (.text path)), .compile, .inherit]

end Generate

/-- The code that declares a member of the object in slot 0. A field without a first value is nil. -/
def Member.code (owner : Option String) : Member → Generate (List Instruction)
  | .field x value => do
    let value ← (value.code? owner).getD (return [.pushNil])
    return value ++ [.field (← pool (.text x))]
  | .method x ps body => do
    let closure ← Generate.routine .method owner x ps (body.code owner none)
    return closure ++ [.method (← pool (.text x))]

/-- The code of a unit in parts. -/
structure UnitCode where
  /-- Makes the object and gives it its parents. -/
  head : List Instruction
  members : List (List Instruction)

namespace UnitCode

def instructions (code : UnitCode) : List Instruction :=
  code.head ++ code.members.flatten ++ [.ret]

def start (code : UnitCode) (k : Nat) : Nat :=
  Code.length (code.head ++ (code.members.take k).flatten)

end UnitCode

def ObjectUnit.code (path : String) (unit : ObjectUnit) : Generate UnitCode := do
  let name ← pool (.text path)
  let parents ← unit.parents.mapM Generate.inheritance
  let members ← unit.members.mapM (Member.code (some path))
  return ⟨.object name :: parents.flatten, members⟩

def UnitCode.routine (code : UnitCode) (s : Scope) : Routine :=
  ⟨s.kind, s.name, s.arity, s.captures.size, s.owner,
    ⟨(code.instructions.flatMap Instruction.encode).toArray, #[], s.draft.constants⟩⟩

def ObjectUnit.generate (unit : ObjectUnit) (path : String) : Except Mistake (UnitCode × Routine) := do
  let (code, s) ← (unit.code path).run ⟨.start .object path (some path), []⟩
  return (code, code.routine s.current)

/-! ### Following a rendering -/

open Compile (Mirrors MirrorsAt)

section

variable {γ δ : Type} {owner : Option String} {bound m k : Nat} {rest ts us : List TokenKind} {c : Compiler}
  {s : Scopes} {ps : List Piece} {R : γ → Compiler → δ → Prop}

theorem inherit_mirrors {f g} (hat : c.At owner (.keyword .inherit :: .text path :: .symbol .semicolon :: ts) s ps)
    (hf : ∀ is, MirrorsAt owner ts s (ps ++ written is) (f true) (g is) R) :
    Mirrors (Compile.inheritDeclaration bound >>= f) (Generate.inheritance path >>= g) c R := by
  simp only [Compile.inheritDeclaration, Compile.inheritance, Compile.emitConstant, Generate.inheritance,
    bind_assoc, pure_bind]
  refine .accept hat fun c1 h1 => ?_
  simp only [if_true, bind_assoc, pure_bind]
  refine .current h1 ?_
  simp only [headD_cons, bind_assoc]
  refine .advance h1 fun c2 h2 => .text h2 fun name c3 h3 => .emit h3 trivial fun c4 h4 =>
    .emit h4 trivial fun c5 h5 => .emit h5 trivial fun c6 h6 => .expect h6 fun c7 h7 => .resume h7 ?_
  exact hf _ c7 (by simpa using h7)

theorem inherits_mirrors {parents : List String} (hnext : next rest ≠ .keyword .inherit)
    (hk : (inheritTokens parents).length ≤ k) (hat : c.At owner (inheritTokens parents ++ rest) s ps) :
    Mirrors (Compile.repeatUpTo (Compile.inheritDeclaration bound) k) (parents.mapM Generate.inheritance) c
      fun _ c' code => c'.At owner rest s (ps ++ written code.flatten) := by
  induction parents generalizing k c ps with
  | nil =>
    have hend : c.At owner rest s (ps ++ written []) := by simpa [inheritTokens] using hat
    rw [mapM_nil]
    cases k with
    | zero => exact .last (.exhaust hend fun _ h => .pure h)
    | succ k =>
      rw [Compile.repeatUpTo]
      unfold Compile.inheritDeclaration
      rw [bind_assoc]
      refine .reject hat hnext ?_
      simp only [Bool.false_eq_true, if_false, pure_bind]
      exact .pure hend
  | cons path parents ih =>
    simp only [inheritTokens, length_cons] at hk
    obtain ⟨k, rfl⟩ : ∃ k', k = k' + 1 := ⟨k - 1, by omega⟩
    rw [Compile.repeatUpTo, mapM_cons]
    refine inherit_mirrors hat fun is c1 h1 => ?_
    rw [if_pos rfl]
    exact .map ((ih (by omega) h1).mono fun _ c2 code h2 => by simpa using h2)

theorem field_mirrors {value : Clause} {f g} (h : Derives true .initializer value ts) (hbound : ts.length ≤ bound)
    (hm : ts.length ≤ m + 1) (hstop : Stops .assignment rest) (hat : c.At owner (ts ++ rest) s ps)
    (hf : ∀ is, MirrorsAt owner rest s (ps ++ written is) (f ()) (g is) R) :
    Mirrors (Compile.field bound (.upTo m) x >>= f) (Member.code owner (.field x value) >>= g) c R := by
  have hvalue : Follows owner .initializer value ts := h.follows owner
  simp only [Compile.field, Compile.nameConstant, Member.code, bind_assoc, pure_bind]
  refine .bind (hvalue hbound hm hstop hat) fun _ c1 is h1 => ?_
  exact .text h1 fun name c2 h2 => .emit h2 trivial fun c3 h3 => hf _ c3 (by simpa using h3)

theorem fields_mirrors {vs : Declarators} {x : String} {ts : List TokenKind} {k : Nat} {c : Compiler}
    {ps} (h : Derives true .variables vs (.name x :: ts)) (hbound : ts.length ≤ bound) (hm : ts.length ≤ m + 1)
    (hk : ts.length ≤ k) (hat : c.At owner (ts ++ .symbol .semicolon :: rest) s ps) : Mirrors (do
        Compile.field bound (.upTo m) x
        Compile.repeatUpTo (Compile.anotherField bound (.upTo m)) k) (vs.fields.mapM (Member.code owner)) c
      fun _ c' code => c'.At owner (.symbol .semicolon :: rest) s (ps ++ written code.flatten) := by
  cases h with
  | lastVariable _ hvalue =>
    simp only [Declarators.fields, mapM_cons, mapM_nil]
    refine field_mirrors hvalue hbound hm (.of_precedence rfl rfl) hat fun is c1 h1 => ?_
    rw [pure_bind]
    cases k with
    | zero => exact .last (.exhaust h1 fun _ h2 => .pure (by simpa using h2))
    | succ k =>
      rw [Compile.repeatUpTo]
      unfold Compile.anotherField
      rw [bind_assoc]
      refine .reject h1 (by simp) ?_
      simp only [Bool.false_eq_true, if_false, pure_bind]
      exact .pure (by simpa using h1)
  | @moreVariables _ value more ts' us _ hvalue hmore =>
    have hname : Follows owner .variables more us := hmore.follows owner
    obtain ⟨y, vs, hvs, _⟩ := hname
    rw [hvs] at hmore
    simp only [hvs, length_append, length_cons] at hbound hm hk
    simp only [hvs, append_assoc, cons_append] at hat
    rw [Declarators.fields, mapM_cons]
    refine field_mirrors hvalue (by omega) (by omega) (.of_precedence rfl rfl) hat fun is c1 h1 => ?_
    obtain ⟨k, rfl⟩ : ∃ k', k = k' + 1 := ⟨k - 1, by omega⟩
    rw [Compile.repeatUpTo]
    unfold Compile.anotherField
    rw [bind_assoc]
    refine .accept h1 fun c2 h2 => ?_
    rw [if_pos rfl, bind_assoc]
    refine .expectName h2 fun c3 h3 => ?_
    have hrest := fields_mirrors hmore (by omega) (by omega) (show vs.length ≤ k by omega) h3
    simp only [bind_assoc, pure_bind, if_true]
    exact .map (hrest.mono fun _ c4 code h4 => by simpa using h4)

theorem member_mirrors {type : TypeName} {f} {g : Grammar} {h} (hat : c.At owner (.type type :: .name x :: ts) s ps)
    (hf : MirrorsAt owner ts s ps (do
        let isMethod ← Compile.check (.symbol .leftParen)
        (if isMethod then do
          Compile.method bound g x
          Compile.resume bound
        else do
          Compile.fields bound g x
          Compile.resume bound)
        f true) h R) : Mirrors (Compile.memberDeclaration bound g >>= f) h c R := by
  simp only [Compile.memberDeclaration, Compile.member, bind_assoc]
  refine .checkNot hat (by simp) ?_
  simp only [Bool.false_eq_true, if_false, bind_assoc, pure_bind]
  refine .current hat ?_
  simp only [headD_cons, TokenKind.isType, if_true, bind_assoc]
  exact .advance hat fun c1 h1 => .expectName h1 fun c2 h2 => hf c2 h2

theorem method_mirrors {xs body f g} (h : Derives true .function (xs, body) ts)
    (hbound : ts.length ≤ bound) (hm : ts.length ≤ m) (hat : c.At owner (ts ++ rest) s ps)
    (hf : ∀ is, MirrorsAt owner rest s (ps ++ written is) (f ()) (g is) R) :
    Mirrors (Compile.method bound (.upTo m) x >>= f) (Member.code owner (.method x xs body) >>= g) c R := by
  simp only [Compile.method, Compile.nameConstant, Member.code, bind_assoc, pure_bind]
  have hfollows : Follows owner .function (xs, body) ts := h.follows owner
  refine .bind (hfollows hbound hm hat) fun _ c1 is h1 => ?_
  exact .text h1 fun name c2 h2 => .emit h2 trivial fun c3 h3 => hf _ c3 (by simpa using h3)

theorem members_mirrors {members : List Member} (h : DerivesMembers members ts) (hbound : ts.length ≤ bound)
    (hm : ts.length ≤ m) (hk : ts.length ≤ k) (hat : c.At owner ts s ps) :
    Mirrors (Compile.repeatUpTo (Compile.memberDeclaration bound (.upTo m)) k)
      (members.mapM (Member.code owner)) c
      fun _ c' code => c'.At owner [] s (ps ++ written code.flatten) := by
  induction h generalizing k c ps with
  | nil =>
    have hend : c.At owner [] s (ps ++ written []) := by simpa using hat
    rw [mapM_nil]
    cases k with
    | zero => exact .last (.exhaust hend fun _ h => .pure h)
    | succ k =>
      have hcheck : Compile.check .endOfText c = (true, c) := by
        show (decide (c.current.kind = .endOfText), c) = _
        rw [hat.current]
        rfl
      rw [Compile.repeatUpTo]
      unfold Compile.memberDeclaration
      rw [bind_assoc]
      refine .step (by rw [hcheck]) ?_
      rw [hcheck]
      simp only [if_true, pure_bind, Bool.false_eq_true, if_false]
      exact .pure hend
  | @fields type vs rest ts us hvs _ ih =>
    have hname : Follows owner .variables vs ts := hvs.follows owner
    obtain ⟨x, ts, rfl, hnext, _⟩ := hname
    simp only [length_append, length_cons] at hbound hm hk
    simp only [cons_append] at hat
    obtain ⟨k, rfl⟩ : ∃ k', k = k' + 1 := ⟨k - 1, by omega⟩
    rw [Compile.repeatUpTo, mapM_append]
    refine member_mirrors hat fun c1 h1 => .checkNot h1 ?_ ?_
    · cases ts with
      | nil => simp
      | cons kind ts => exact hnext
    simp only [Bool.false_eq_true, if_false, if_true, Compile.fields, bind_assoc]
    have hfields := fields_mirrors hvs (show ts.length ≤ bound by omega) (show ts.length ≤ m + 1 by omega)
      (show ts.length ≤ bound by omega) h1
    rw [← bind_assoc]
    refine .bind hfields fun _ c2 code h2 => .expect h2 fun c3 h3 => .resume h3 ?_
    exact .map ((ih (by omega) (by omega) (by omega) h3).mono fun _ c4 code h4 => by simpa using h4)
  | @method type x xs body rest ts us _ hbody _ ih =>
    obtain ⟨ts', rfl⟩ : ∃ ts', ts = .symbol .leftParen :: ts' := by
      cases hbody
      exact ⟨_, rfl⟩
    simp only [length_append, length_cons] at hbound hm hk
    obtain ⟨k, rfl⟩ : ∃ k', k = k' + 1 := ⟨k - 1, by omega⟩
    rw [Compile.repeatUpTo, mapM_cons]
    refine member_mirrors hat fun c1 h1 => .check h1 ?_
    simp only [if_true, bind_assoc]
    refine method_mirrors hbody (by simp; omega) (by simp; omega) h1 fun is c2 h2 => .resume h2 ?_
    exact .map ((ih (by omega) (by omega) (by omega) h2).mono fun _ c3 code h3 => by simpa using h3)

theorem DerivesMembers.next_ne {members} (h : DerivesMembers members ts) : next ts ≠ .keyword .inherit := by
  cases h <;> exact nofun

theorem objectUnit_mirrors {unit : ObjectUnit} (h : unit.Derives ts) (hbound : ts.length ≤ bound)
    (hat : c.At (some path) ts s []) :
    Mirrors (Compile.objectUnit bound (.upTo bound) path) (unit.code path) c fun _ c' code =>
      c'.At (some path) [] s (written code.instructions) := by
  obtain ⟨us, rfl, hmembers⟩ := h
  rw [length_append] at hbound
  simp only [Compile.objectUnit, Compile.nameConstant, ObjectUnit.code]
  refine .text hat fun name c1 h1 => .emit h1 trivial fun c2 h2 => ?_
  refine .bind (inherits_mirrors hmembers.next_ne (by omega) h2) fun _ c3 parents h3 => ?_
  refine .bind (members_mirrors hmembers (by omega) (by omega) (by omega) h3) fun _ c4 members h4 => ?_
  exact .last (.emit h4 trivial fun c5 h5 => .pure (by simpa [UnitCode.instructions] using h5))

end

/-- A unit compiles to the routine generated from its tree, and otherwise not at all. -/
theorem compileObject_of_derives (path : String) {source : String} {kinds} {unit : ObjectUnit}
    (hscan : Scans source kinds) (h : unit.Derives kinds) : match unit.generate path with
    | .ok (_, r) => ∃ r', compileObject path source = .ok r' ∧ r'.withoutLines = r ∧ r'.Logged
    | .error _ => ∃ errors, compileObject path source = .error errors := by
  have hcompiled := run_of_mirrors (.start .object path (some path))
    (fun bound g => Compile.objectUnit bound g path) hscan (Scope.outline_start _ _ _) rfl
    fun hbound _ hat => objectUnit_mirrors h hbound hat
  rw [ObjectUnit.generate, StateT.run]
  cases hcode : unit.code path ⟨.start .object path (some path), []⟩ with
  | error m =>
    rw [hcode] at hcompiled
    exact hcompiled
  | ok result =>
    rw [hcode] at hcompiled
    obtain ⟨s, hrun, houtline, hbytes, hlogged⟩ := hcompiled
    refine ⟨_, hrun, ?_, hlogged⟩
    have hbytes : _ = result.1.instructions.flatMap Instruction.encode := hbytes.trans (Pieces.encode_written _)
    show _ = result.1.routine result.2.current
    rw [← houtline, Scope.toRoutine, Routine.withoutLines, Code.withoutLines_eq, UnitCode.routine, ← hbytes]
    rfl

/-! ### Recognition -/

namespace Compile

variable {bound : Nat} {g : Grammar} {c : Compiler} {text : List (Option TokenKind)} {ts : List TokenKind}

theorem inheritance_yields (h : c.Past text ts) :
    Yields (inheritance bound) c fun _ c' => ∃ path, c'.Past text (ts ++ [.text path] ++ [.symbol .semicolon]) := by
  refine .current ?_
  split
  · rename_i path hpath
    exact .advance h hpath nofun fun c1 h1 => .silent h1 fun _ c2 h2 => .silent h2 fun _ c3 h3 => .silent h3
      fun _ c4 h4 =>
      .expect h4 nofun fun c5 h5 => resume_yields h5.recovering ⟨path, h5⟩
  · exact .mistakeAhead h.reported

theorem inherits_yields (h : c.Past text ts) (k : Nat) : Yields (repeatUpTo (inheritDeclaration bound) k) c fun _ c' =>
      ∃ parents, c'.Past text (ts ++ inheritTokens parents) := by
  induction k generalizing c ts with
  | zero => exact .last .exhaust
  | succ k ih =>
    rw [repeatUpTo]
    unfold inheritDeclaration
    rw [bind_assoc]
    refine .accept h (by decide) (fun _ c1 h1 => ?_) fun _ => ?_
    · simp only [if_true, bind_assoc, pure_bind]
      refine .bind (inheritance_yields h1) ?_
      rintro _ c2 ⟨path, h2⟩
      refine (ih h2).mono ?_
      rintro _ c3 ⟨parents, h3⟩
      exact ⟨path :: parents, by simpa [inheritTokens] using h3⟩
    · simp only [Bool.false_eq_true, if_false, pure_bind]
      exact .pure ⟨[], by simpa [inheritTokens] using h⟩

theorem field_yields (hg : Reads g) (h : c.Past text ts) (x : String) :
    Yields (field bound g x) c fun _ => Took .initializer text ts :=
  (initializer_yields hg h).took

/-- Members were taken: the tokens stand for them in front of any others. -/
def TookMembers (text : List (Option TokenKind)) (ts : List TokenKind) (c : Compiler) : Prop :=
  ∃ members us, c.Past text (ts ++ us) ∧
    ∀ {more vs}, DerivesMembers more vs → DerivesMembers (members ++ more) (us ++ vs)

theorem fields_yields (hg : Reads g) (hx : IsName x) {type : TypeName}
    (h : c.Past text (ts ++ [.type type] ++ [.name x])) : Yields (fields bound g x) c fun _ => TookMembers text ts := by
  refine (declarators_yields "field name" (fun h => field_yields hg h) hx h).mono
    fun _ c' ⟨declared, us, hdeclared, h'⟩ => ?_
  refine ⟨declared.fields, .type type :: (us ++ [.symbol .semicolon]), by simpa using h', fun hrest => ?_⟩
  have hmembers := @DerivesMembers.fields type _ _ _ _ hdeclared hrest
  simpa using hmembers

theorem method_yields (hg : Reads g) (hx : IsName x) {type : TypeName}
    (h : c.Past text (ts ++ [.type type] ++ [.name x])) : Yields (method bound g x) c fun _ => TookMembers text ts := by
  refine (function_yields hg h .method x).took.mono fun _ c1 ⟨(xs, body), us, hfunction, h1, _⟩ => ?_
  exact ⟨[.method x xs body], .type type :: .name x :: us, by simpa using h1, fun hrest => .method hx hfunction hrest⟩

theorem member_yields (hg : Reads g) (h : c.Past text ts) : Yields (member bound g) c fun _ => TookMembers text ts := by
  have hresume {c : Compiler} (h : TookMembers text ts c) : Yields (resume bound) c fun _ => TookMembers text ts := by
    obtain ⟨members, us, h, hmembers⟩ := h
    exact resume_yields h.recovering ⟨members, us, h, hmembers⟩
  refine .current ?_
  split
  · rename_i htype
    obtain ⟨type, htype⟩ := TokenKind.eq_type_of_isType htype
    refine .advance h htype nofun fun c1 h1 => .expectName h1 fun x c2 hx h2 => .check (fun _ => ?_) fun _ => ?_
    · exact .bind (method_yields hg hx h2) fun _ c3 => hresume
    · exact .bind (fields_yields hg hx h2) fun _ c3 => hresume
  · exact .mistakeAhead h.reported

theorem members_yields (hg : Reads g) (h : c.Past text ts) (k : Nat) :
    Yields (repeatUpTo (memberDeclaration bound g) k) c fun _ _ =>
      ∃ members us, text = (ts ++ us).map some ∧ DerivesMembers members us := by
  induction k generalizing c ts with
  | zero => exact .last .exhaust
  | succ k ih =>
    rw [repeatUpTo]
    unfold memberDeclaration
    rw [bind_assoc]
    refine .check (fun hend => ?_) fun _ => ?_
    · simp only [if_true, pure_bind, Bool.false_eq_true, if_false]
      exact .pure ⟨[], [], by simpa using h.text_eq hend, .nil⟩
    · simp only [Bool.false_eq_true, if_false, bind_assoc, pure_bind, if_true]
      refine .bind (member_yields hg h) ?_
      rintro _ c1 ⟨members, us, h1, hmembers⟩
      refine (ih h1).mono ?_
      rintro _ c2 ⟨more, vs, htext, hmore⟩
      exact ⟨members ++ more, us ++ vs, by simpa using htext, hmembers hmore⟩

theorem objectUnit_yields (h : c.Past text []) : Yields (objectUnit bound (.upTo bound) path) c fun _ _ =>
      ∃ (unit : ObjectUnit) (ts : List TokenKind), text = ts.map some ∧ unit.Derives ts := by
  refine .silent h fun _ c1 h1 => .silent h1 fun _ c2 h2 => .bind (inherits_yields h2 bound)
    fun _ c3 ⟨parents, h3⟩ => ?_
  exact .bind (members_yields (upTo_reads bound) h3 bound) fun _ c4 ⟨members, us, htext, hmembers⟩ _ =>
    ⟨⟨parents, members⟩, inheritTokens parents ++ us, by simpa using htext, us, rfl, hmembers⟩

end Compile

/-- The text of a unit that compiles scans without a fault, and its tokens stand for some unit. -/
theorem derives_of_compileObject {source : String} {r : Routine} (h : compileObject path source = .ok r) :
    ∃ kinds, ∃ unit : ObjectUnit, Scans source kinds ∧ unit.Derives kinds := by
  obtain ⟨kinds, hscan, unit, hunit⟩ := Compile.run_yields (fun bound g => Compile.objectUnit bound g path)
    (P := fun ts => ∃ unit : ObjectUnit, unit.Derives ts) (Compile.last_object_orderly path source).unexhausted
    (fun h => (Compile.objectUnit_yields h).mono fun _ _ ⟨unit, ts, hks, hunit⟩ => ⟨ts, hks, unit, hunit⟩) h
  exact ⟨kinds, unit, hscan, hunit⟩

end Mudscript
