import Mudscript.Proofs.Decoding
import Mudscript.Proofs.Phrases

/-!
# The code of a tree

What code a tree stands for, by recursion over the tree. The code of a part is a list of instructions
on its own, so every jump is written with its distance at once: the distance is the length of the code
in between. The only thing a part cannot know is how far the end of the loop around it is. A `break`
is left open for that reason until the loop is put together.

Names mean what the scopes say, and literals and names enter the pool of the function they stand in.
Of the scopes this uses the locals, the captures and the pool; the code is not written into them.
-/

namespace Mudscript

open Compile (Access)

/-! ### Pieces -/

/-- An instruction, or a jump to the end of the innermost loop that is not complete yet. -/
inductive Piece
  | write (i : Instruction)
  | break_

namespace Piece

def size : Piece → Nat
  | .write i => i.size
  | .break_ => 3

@[simp] theorem size_pop : (write .pop).size = 1 := rfl

@[simp] theorem size_jump (distance : Nat) : (write (.jump distance)).size = 3 := rfl

@[simp] theorem size_jumpIfFalse (distance : Nat) : (write (.jumpIfFalse distance)).size = 3 := rfl

@[simp] theorem size_loop (distance : Nat) : (write (.loop distance)).size = 3 := rfl

end Piece

namespace Pieces

def size (ps : List Piece) : Nat := (ps.map Piece.size).sum

@[simp] theorem size_nil : size [] = 0 := rfl

@[simp] theorem size_cons (p : Piece) (ps : List Piece) : size (p :: ps) = p.size + size ps := rfl

@[simp] theorem size_append (ps qs : List Piece) : size (ps ++ qs) = size ps + size qs := by
  simp [size]

end Pieces

def written (is : List Instruction) : List Piece := is.map .write

@[simp] theorem written_nil : written [] = [] := rfl

@[simp] theorem written_cons (i : Instruction) (is : List Instruction) :
    written (i :: is) = .write i :: written is := rfl

@[simp] theorem written_append (is js : List Instruction) :
    written (is ++ js) = written is ++ written js := List.map_append

@[simp] theorem Pieces.size_written (is : List Instruction) : size (written is) = Code.length is := by
  induction is with
  | nil => rfl
  | cons i is ih =>
    rw [written_cons, size_cons, ih, Code.length_cons]
    rfl

/-! ### What generating code can do -/

/-- Generating code changes what the scopes know, and stops at the first mistake. -/
abbrev Generate := StateT Scopes (Except Mistake)

instance (s : Scopes) : Decidable s.AtGlobalLevel := inferInstanceAs (Decidable (_ ∧ _))

namespace Generate

def pool (k : Constant) : Generate Nat := do
  match (← get).current.draft.addConstant k with
  | (.ok index, d) =>
    modify (·.withDraft d)
    return index
  | (.error fault, _) => throw (.code fault)

def resolve (x : String) : Generate Access := do
  match (← get).current.slot? x with
  | .error fault => throw (.scope fault)
  | .ok (some slot) => return .local_ slot
  | .ok none =>
    let (found, s) := (← get).upvalue? x
    set s
    match found with
    | .error fault => throw (.scope fault)
    | .ok (some index) => return .upvalue index
    | .ok none =>
      let index ← pool (.text x)
      if (← get).inObject then return .property index else return .global index

def receiver : Generate (List Instruction) := do
  match ← resolve receiverName with
  | .local_ slot => return [.getLocal slot]
  | .upvalue index => return [.getUpvalue index]
  | .global _ | .property _ => throw .thisOutsideObject

def declare (x : String) : Generate Unit := do
  match (← get).current.declare x with
  | .ok scope => modify (·.onCurrent fun _ => scope)
  | .error fault => throw (.scope fault)

def leaving (depth : Int) : Generate (List Instruction) :=
  return ((← get).current.deeperThan depth).map Local.leave

/-- Forgets the locals of the innermost block, and gives the code that takes them off the stack. -/
def endBlock : Generate (List Instruction) := do
  let depth := (← get).current.depth - 1
  let leave ← leaving depth
  modify (·.onCurrent fun s =>
    { s with depth := depth, locals := s.locals.dropWhile (depth < ·.depth) })
  return leave

def forward (distance : Nat) : Generate Nat :=
  if distance ≤ maxWord then return distance else throw (.code .jumpTooLarge)

def backward (distance : Nat) : Generate Nat :=
  if distance ≤ maxWord then return distance else throw (.code .loopTooLarge)

/-- Completes the jumps to the end of a loop, which comes `exit` bytes behind the pieces. -/
def aim (exit : Nat) : List Piece → Generate (List Instruction)
  | [] => return []
  | .write i :: ps => return i :: (← aim exit ps)
  | .break_ :: ps => do
    let distance ← forward (Pieces.size ps + exit)
    return .jump distance :: (← aim exit ps)

end Generate

open Generate

/-! ### Expressions -/

def Literal.code : Literal → Generate (List Instruction)
  | .number n => return [.constant (← pool (.number n))]
  | .text s => return [.constant (← pool (.text s))]
  | .nil => return [.pushNil]
  | .true_ => return [.pushTrue]
  | .false_ => return [.pushFalse]

/-- The code of an assignment from the code that reads the old value, the code of the new one and the
instruction that stores it. -/
def AssignmentOperator.code (op : AssignmentOperator) (old value : List Instruction)
    (store : Instruction) : List Instruction :=
  match op.combines? with
  | some combine => old ++ value ++ [combine.operation, store]
  | none => value ++ [store]

namespace Generate

def conjunction (right : Generate (List Instruction)) : Generate (List Instruction) := do
  let right ← right
  let distance ← forward (Code.length right + 1)
  return .jumpIfFalse distance :: .pop :: right

def disjunction (right : Generate (List Instruction)) : Generate (List Instruction) := do
  let right ← right
  let distance ← forward (Code.length right + 1)
  return .jumpIfFalse 3 :: .jump distance :: .pop :: right

/-- A name that is read, called or assigned to: what becomes of a variable, and of a property of the
receiver, whose code is given. -/
def onName (x : String) (variable_ : Access → Generate (List Instruction))
    (property : Nat → Generate (List Instruction)) : Generate (List Instruction) := do
  match ← resolve x with
  | .property name => return (← receiver) ++ (← property name)
  | access => variable_ access

def withCount (count : Nat) (code : List Instruction) : Generate (List Instruction × Nat) :=
  if count ≤ Compile.maxArguments then return (code, count) else throw .tooManyArguments

def counted (arguments : Arguments) (code : Generate (List Instruction)) :
    Generate (List Instruction × Nat) := do
  withCount arguments.length (← code)

def invocation (name : Nat) (arguments : Generate (List Instruction × Nat)) :
    Generate (List Instruction) := do
  let (code, count) ← arguments
  return code ++ [.invoke name count]

def application (arguments : Generate (List Instruction × Nat)) : Generate (List Instruction) := do
  let (code, count) ← arguments
  return code ++ [.call count]

/-- A call of the parent's version of a method, by a unit with the given owner. -/
def superCall (owner : Option String) (x : String) (arguments : Generate (List Instruction × Nat)) :
    Generate (List Instruction) := do
  if owner.isNone then throw .superOutsideObject
  let name ← pool (.text x)
  let this ← receiver
  let (code, count) ← arguments
  return this ++ code ++ (← receiver) ++ [.super, .superInvoke name count]

def parameter (x : String) : Generate Unit := do
  if (← get).current.arity = Compile.maxArguments then throw .tooManyParameters
  modify Scopes.countParameter
  declare x
  modify Scopes.define

end Generate

/-- The routine of a finished scope. Its code returns nil at the end. -/
def Scope.finish (s : Scope) (code : List UInt8) : Routine :=
  ⟨s.kind, s.name, s.arity, s.captures.size, s.owner,
    ⟨(code ++ Instruction.pushNil.encode ++ Instruction.ret.encode).toArray, #[],
      s.draft.constants⟩⟩

/-- The bytes of code in which every jump is complete but those to the end of a loop. -/
def Pieces.encode (ps : List Piece) : List UInt8 :=
  ps.flatMap fun
    | .write i => i.encode
    | .break_ => (Instruction.jump maxWord).encode

/-- A function or method of a unit with the given owner: its routine enters the pool of the function around
it, which makes a closure of it. -/
def Generate.routine (kind : RoutineKind) (owner : Option String) (name : String) (parameters : List String)
    (body : Generate (List Piece)) : Generate (List Instruction) := do
  modify fun s => (s.enter kind name owner).beginBlock
  parameters.forM parameter
  let code ← body
  let finished := (← get).current
  modify Scopes.left
  let index ← pool (.routine (finished.finish (Pieces.encode code)))
  return [.closure index finished.captures.toList]

def Generate.function (owner : Option String) (name : String) (parameters : List String)
    (body : Generate (List Piece)) : Generate (List Instruction) :=
  routine .function owner name parameters body

/-! ### Statements -/

/-- The loop around a statement: how deep the blocks around the loop are nested, and how many bytes
behind the place where `continue` goes the statement starts. -/
structure LoopSite where
  depth : Int
  back : Nat

def LoopSite.after (l : LoopSite) (bytes : Nat) : LoopSite := { l with back := l.back + bytes }

namespace Generate

def conditional (condition : Generate (List Instruction))
    (consequent alternative : Option LoopSite → Generate (List Piece)) (l : Option LoopSite) :
    Generate (List Piece) := do
  let test ← condition
  let yes ← consequent (l.map (·.after (Code.length test + 4)))
  let toElse ← forward (Pieces.size yes + 4)
  let no ← alternative (l.map (·.after (Code.length test + 4 + Pieces.size yes + 4)))
  let toEnd ← forward (Pieces.size no + 1)
  return written (test ++ [.jumpIfFalse toElse, .pop]) ++ yes ++
    written [.jump toEnd, .pop] ++ no

/-- The bytes in front of a loop's step and body: a condition and the jump that leaves the loop. -/
def testSize : Option (List Instruction) → Nat
  | none => 0
  | some test => Code.length test + 4

/-- The step of a loop, which is written in front of the body and runs behind it, and how far in
front of the body `continue` goes. -/
def stepCode (test : Option (List Instruction)) :
    Option (Generate (List Instruction)) → Generate (List Instruction × Nat)
  | none => return ([], testSize test)
  | some step => do
    let step ← step
    let toTest ← backward (testSize test + Code.length step + 7)
    let toBody ← forward (Code.length step + 4)
    return (.jump toBody :: step ++ [.pop, .loop toTest], Code.length step + 4)

/-- The condition in front of a loop whose remainder has the given size, and what stands behind the
loop when the condition fails. -/
def testCode (rest : Nat) : Option (List Instruction) → Generate (List Instruction × List Instruction)
  | none => return ([], [])
  | some test => do
    let toExit ← forward (rest + 1)
    return (test ++ [.jumpIfFalse toExit, .pop], [.pop])

def optional : Option (Generate (List Instruction)) → Generate (Option (List Instruction))
  | none => return none
  | some code => return some (← code)

def loop (condition step : Option (Generate (List Instruction)))
    (body : LoopSite → Generate (List Piece)) : Generate (List Piece) := do
  let test ← optional condition
  let (step, back) ← stepCode test step
  let body ← body ⟨(← get).current.depth, back⟩
  let again ← backward (back + Pieces.size body + 3)
  let (test, exit) ← testCode (Code.length step + Pieces.size body + 3) test
  let body ← aim (Code.length exit + 3) body
  return written (test ++ step ++ body ++ .loop again :: exit)

def exitLoop : Option LoopSite → Generate (List Piece)
  | none => throw .breakOutsideLoop
  | some l => return written (← leaving l.depth) ++ [.break_]

def continueLoop : Option LoopSite → Generate (List Piece)
  | none => throw .continueOutsideLoop
  | some l => do
    let leave ← leaving l.depth
    let distance ← backward (l.back + Code.length leave + 3)
    return written (leave ++ [.loop distance])

/-! ### Declarations -/

/-- A variable with the code of its first value. Outside every block of a script it is global. -/
def variable_ (x : String) (value : Generate (List Instruction)) : Generate (List Instruction) := do
  if (← get).AtGlobalLevel then
    let name ← pool (.text x)
    return (← value) ++ [.defineGlobal name]
  else
    declare x
    let value ← value
    modify Scopes.define
    return value

/-- A named function. Inside a block it can be used in its own body. -/
def functionVariable (x : String) (function : Generate (List Instruction)) :
    Generate (List Instruction) := do
  if (← get).AtGlobalLevel then
    let name ← pool (.text x)
    return (← function) ++ [.defineGlobal name]
  else
    declare x
    modify Scopes.define
    function

end Generate

mutual

def Expression.code (owner : Option String) : Expression → Generate (List Instruction)
  | .literal l => l.code
  | .name x => onName x (return [·.get]) (return [.getProperty ·])
  | .assign x op value => onName x
      (fun access => return op.code [access.get] (← value.code owner) access.set)
      (fun name => return op.code [.dup, .getProperty name] (← value.code owner) (.setProperty name))
  | .unary op e => return (← e.code owner) ++ [op.operation]
  | .binary op l r => return (← l.code owner) ++ (← r.code owner) ++ [op.operation]
  | .and l r => return (← l.code owner) ++ (← conjunction (r.code owner))
  | .or l r => return (← l.code owner) ++ (← disjunction (r.code owner))
  | .call e a => return (← e.code owner) ++ (← application (counted a (a.code owner)))
  | .callName x a => onName x
      (fun access => return access.get :: (← application (counted a (a.code owner))))
      (fun name => invocation name (counted a (a.code owner)))
  | .property e x => return (← e.code owner) ++ [.getProperty (← pool (.text x))]
  | .assignProperty e x op value => do
    let e ← e.code owner
    let name ← pool (.text x)
    return e ++ op.code [.dup, .getProperty name] (← value.code owner) (.setProperty name)
  | .invoke e x a => do
    let e ← e.code owner
    let name ← pool (.text x)
    return e ++ (← invocation name (counted a (a.code owner)))
  | .this => do if (← get).inObject then receiver else throw .thisOutsideObject
  | .superCall x a => superCall owner x (counted a (a.code owner))
  | .lambda ps body => function owner "" ps (body.code owner none)

def Arguments.code (owner : Option String) : Arguments → Generate (List Instruction)
  | .nil => return []
  | .cons e rest => return (← e.code owner) ++ (← rest.code owner)

def Clause.code? (owner : Option String) : Clause → Option (Generate (List Instruction))
  | .none => none
  | .some e => some (e.code owner)

def Declarators.code (owner : Option String) : Declarators → Generate (List Instruction)
  | .nil => return []
  | .cons x value rest =>
    return (← Generate.variable_ x ((value.code? owner).getD (return [.pushNil]))) ++
      (← rest.code owner)

/-- The code that performs a statement, which stands at the given place of a loop. -/
def Statement.code (owner : Option String) : Statement → Option LoopSite → Generate (List Piece)
  | .expression e, _ => return written ((← e.code owner) ++ [.pop])
  | .block body, l => do
    modify Scopes.beginBlock
    let body ← body.code owner l
    return body ++ written (← endBlock)
  | .ifThen e s, l => conditional (e.code owner) (s.code owner) (fun _ => return []) l
  | .ifElse e s a, l => conditional (e.code owner) (s.code owner) (a.code owner) l
  | .while_ e s, _ => loop (some (e.code owner)) none (fun l => s.code owner (some l))
  | .for_ first condition step s, l => do
    modify Scopes.beginBlock
    let first ← first.code owner l
    let body ← loop (condition.code? owner) (step.code? owner) (fun l => s.code owner (some l))
    return first ++ body ++ written (← endBlock)
  | .return_ value, _ =>
    return written ((← (value.code? owner).getD (return [.pushNil])) ++ [.ret])
  | .break_, l => exitLoop l
  | .continue_, l => continueLoop l

def Declaration.code (owner : Option String) : Declaration → Option LoopSite → Generate (List Piece)
  | .function x ps body, _ =>
    return written (← functionVariable x (function owner x ps (body.code owner none)))
  | .variables vs, _ => return written (← vs.code owner)
  | .statement s, l => s.code owner l

def Declarations.code (owner : Option String) : Declarations → Option LoopSite → Generate (List Piece)
  | .nil, _ => return []
  | .cons d rest, l => do
    let d ← d.code owner l
    return d ++ (← rest.code owner (l.map (·.after (Pieces.size d))))

end

def Declarations.generate (script : Declarations) (name : String) : Except Mistake Routine := do
  let (code, s) ← (script.code none none).run ⟨.start .script name none, []⟩
  return s.current.finish (Pieces.encode code)

end Mudscript
