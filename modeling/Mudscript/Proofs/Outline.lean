import Mudscript.Proofs.Development
import Mudscript.Proofs.Generation
import Mudscript.Proofs.Lines

/-!
# What the scopes know and what was written

Scopes under compilation hold two things: what names mean and what the pools contain, and the bytes
written so far with the loops that are open. The outline of the scopes is the first, with the lines of
the source left out, and generating code from a tree changes nothing else. `Scopes.Wrote` is about the
second: which pieces of code were added between two states, and that they were added as a log says.
-/

namespace Mudscript

open List

variable {d : Draft} {i : Instruction}

/-! ### Routines without lines -/

mutual

def Constant.withoutLines : Constant → Constant
  | .number n => .number n
  | .text s => .text s
  | .routine r => .routine r.withoutLines

/-- A routine with no lines in its code and in the routines written in it. -/
def Routine.withoutLines : Routine → Routine
  | ⟨kind, name, arity, upvalueCount, owner, code⟩ =>
    ⟨kind, name, arity, upvalueCount, owner, code.withoutLines⟩

def Code.withoutLines : Code → Code
  | ⟨bytes, _, ⟨constants⟩⟩ => ⟨bytes, #[], ⟨Constant.allWithoutLines constants⟩⟩

def Constant.allWithoutLines : List Constant → List Constant
  | [] => []
  | k :: ks => k.withoutLines :: Constant.allWithoutLines ks

end

private theorem Constant.allWithoutLines_eq (ks : List Constant) :
    Constant.allWithoutLines ks = ks.map Constant.withoutLines := by
  induction ks with
  | nil => rfl
  | cons k ks ih => rw [Constant.allWithoutLines, ih, map_cons]

theorem Code.withoutLines_eq (code : Code) :
    code.withoutLines = ⟨code.bytes, #[], code.constants.map Constant.withoutLines⟩ := by
  obtain ⟨bytes, lines, ⟨constants⟩⟩ := code
  rw [Code.withoutLines, Constant.allWithoutLines_eq, map_toArray]

theorem Constant.key?_withoutLines (k : Constant) : k.withoutLines.key? = k.key? := by
  cases k <;> rfl

namespace Draft

def outline (d : Draft) : Draft :=
  ⟨#[], #[], d.constants.map Constant.withoutLines, d.entries⟩

theorem outline_eq {d' : Draft} (hconstants : d'.constants = d.constants)
    (hentries : d'.entries = d.entries) : d'.outline = d.outline := by
  rw [outline, outline, hconstants, hentries]

private theorem outline_pushConstant (d : Draft) (k : Constant) :
    (d.pushConstant k).outline = d.outline.pushConstant k.withoutLines := by
  cases hkey : k.key? with
  | none =>
    rw [pushConstant_none hkey, pushConstant_none (k.key?_withoutLines.trans hkey)]
    simp [outline]
  | some key =>
    rw [pushConstant_some hkey, pushConstant_some (k.key?_withoutLines.trans hkey)]
    simp [outline]

theorem outline_addConstant (d : Draft) (k : Constant) : d.outline.addConstant k.withoutLines
      = ((d.addConstant k).1, (d.addConstant k).2.outline) := by
  have hentry : d.outline.pooled? k.withoutLines = d.pooled? k := by
    rw [pooled?, pooled?, k.key?_withoutLines]
    rfl
  have hsize : d.outline.constants.size = d.constants.size := Array.size_map
  rw [addConstant, addConstant, hentry]
  cases d.pooled? k with
  | some index => rfl
  | none =>
    dsimp only
    rw [hsize]
    split
    · rw [outline_pushConstant]
    · rfl

end Draft

/-! ### Outlines -/

namespace Scope

/-- What a scope knows, apart from the code and the loops that are open. -/
def outline (s : Scope) : Scope := { s with draft := s.draft.outline, loops := [] }

def work (s : Scope) : List UInt8 × List Loop := (s.draft.bytes.toList, s.loops)

/-- The finished routine without its lines, for a draft that ends like every code. -/
theorem withoutLines_toRoutine {s : Scope} {code}
    (hbytes : s.draft.bytes.toList = code ++ Instruction.pushNil.encode ++ Instruction.ret.encode) :
    s.toRoutine.withoutLines = s.outline.finish code := by
  rw [toRoutine, Routine.withoutLines, Code.withoutLines_eq, finish, ← hbytes, Array.toArray_toList]
  rfl

private theorem outline_slot? (s : Scope) (x : String) : s.outline.slot? x = s.slot? x := rfl

private theorem outline_addCapture (s : Scope) (c : Capture) :
    s.outline.addCapture c = ((s.addCapture c).1, (s.addCapture c).2.outline) := by
  have hcaptures : s.outline.captures = s.captures := rfl
  rw [addCapture, addCapture, hcaptures]
  split
  · rfl
  · split <;> rfl

private theorem outline_captureFrom (s : Scope) (x : String) (outer : List Scope) :
    s.outline.captureFrom x (outer.map outline)
      = ((s.captureFrom x outer).1, (s.captureFrom x outer).2.1.outline,
          (s.captureFrom x outer).2.2.map outline) := by
  induction outer generalizing s with
  | nil => rfl
  | cons e outer ih =>
    rw [map_cons, captureFrom, captureFrom, outline_slot?]
    rcases e.slot? x with fault | _ | slot
    · rfl
    · dsimp only
      rw [ih e]
      rcases e.captureFrom x outer with ⟨fault | _ | above, e', outer'⟩
      · rfl
      · rfl
      · dsimp only
        rw [outline_addCapture]
        rfl
    · dsimp only
      rw [outline_addCapture]
      rfl

theorem outline_emit (s : Scope) (i : Instruction) (line : Nat) : (s.emit i line).outline = s.outline := by
  simp only [outline, emit]
  rw [Draft.outline_eq (Draft.emit_constants _ _ _) (Draft.emit_entries _ _ _)]

theorem outline_emitAll (s : Scope) (is : List Instruction) (line : Nat) : (s.emitAll is line).outline = s.outline := by
  induction is generalizing s with
  | nil => rfl
  | cons i is ih => exact (ih (s.emit i line)).trans (s.outline_emit i line)

theorem outline_start (kind : RoutineKind) (x : String) (owner : Option String) :
    (Scope.start kind x owner).outline = .start kind x owner := by
  simp [outline, start, Draft.outline]

theorem outline_endBlock (s : Scope) (line : Nat) : (s.endBlock line).outline = { s.outline with
      depth := s.depth - 1, locals := s.locals.dropWhile (s.depth - 1 < ·.depth) } :=
  congrArg (fun o : Scope => { o with
    depth := s.depth - 1, locals := s.locals.dropWhile (s.depth - 1 < ·.depth) })
    (s.outline_emitAll _ line)

theorem outline_define (s : Scope) : s.define.outline = s.outline.define := by
  have hdepth : s.outline.depth = s.depth := rfl
  have hlocals : s.outline.locals = s.locals := rfl
  rw [define, define, hdepth, hlocals]
  split
  · rfl
  · split <;> rfl

theorem outline_declare (s : Scope) (x : String) : s.outline.declare x = (s.declare x).map outline := by
  have hblock : s.outline.ofBlock = s.ofBlock := rfl
  have hlocals : s.outline.locals = s.locals := rfl
  rw [declare, declare, hblock, hlocals]
  split
  · rfl
  · split <;> rfl

end Scope

namespace Scopes

def outline (s : Scopes) : Scopes := ⟨s.current.outline, s.enclosing.map Scope.outline⟩

theorem map_work_eq {scopes scopes' : List Scope} (h : scopes'.map Scope.desk = scopes.map Scope.desk) :
    scopes'.map Scope.work = scopes.map Scope.work := by
  have hwork := congrArg (List.map fun desk => (desk.1.bytes.toList, desk.2)) h
  rwa [map_map, map_map] at hwork

theorem outline_onCurrent {f g} (s : Scopes) (h : (f s.current).outline = g s.current.outline) :
    (s.onCurrent f).outline = s.outline.onCurrent g :=
  congrArg (fun current => Scopes.mk current _) h

theorem outline_upvalue? (s : Scopes) (x : String) :
    s.outline.upvalue? x = ((s.upvalue? x).1, (s.upvalue? x).2.outline) := by
  have hcapture := s.current.outline_captureFrom x s.enclosing
  rw [upvalue?, show s.outline.current.captureFrom x s.outline.enclosing = _ from hcapture]
  rfl

theorem outline_inObject (s : Scopes) : s.outline.inObject = s.inObject := by
  simp only [inObject, outline, any_cons, any_map]
  rfl

theorem outline_enter (s : Scopes) (kind : RoutineKind) (x : String) (owner : Option String) :
    (s.enter kind x owner).outline = s.outline.enter kind x owner :=
  congrArg (fun current => Scopes.mk current _) (Scope.outline_start kind x owner)

theorem outline_left (s : Scopes) : s.left.outline = s.outline.left := by
  obtain ⟨current, enclosing⟩ := s
  cases enclosing <;> rfl

theorem outline_emit (s : Scopes) (i : Instruction) (line : Nat) : (s.emit i line).outline = s.outline :=
  congrArg (fun current => Scopes.mk current _) (s.current.outline_emit i line)

theorem outline_addBreak (s : Scopes) (operand : Nat) : (s.addBreak operand).outline = s.outline := by
  refine outline_onCurrent (g := id) s ?_
  split <;> rfl

end Scopes

/-! ### Pieces of code -/

/-- The instruction of a piece, with a placeholder for the distance of an open jump. -/
def Piece.instruction : Piece → Instruction
  | .write i => i
  | .break_ => .jump maxWord

@[simp] theorem map_instruction_written (is : List Instruction) : (written is).map Piece.instruction = is := by
  rw [written, map_map]
  exact map_id is

namespace Pieces

@[simp] theorem encode_nil : encode [] = [] := rfl

@[simp] theorem encode_append (ps qs : List Piece) : encode (ps ++ qs) = encode ps ++ encode qs := by
  simp [encode]

@[simp] theorem encode_written (is : List Instruction) : encode (written is) = is.flatMap Instruction.encode := by
  simp [encode, written, flatMap_map]

@[simp] theorem length_encode (ps : List Piece) : (encode ps).length = size ps := by
  induction ps with
  | nil => rfl
  | cons p ps ih =>
    have hsplit : encode (p :: ps) = encode [p] ++ encode ps := encode_append [p] ps
    rw [hsplit, length_append, ih, size_cons]
    cases p with
    | write i =>
      have hone : encode [.write i] = i.encode := by simp [encode]
      rw [hone, Instruction.length_encode]
      rfl
    | break_ => rfl

theorem encode_eq (ps : List Piece) : encode ps = (ps.map Piece.instruction).flatMap Instruction.encode := by
  rw [flatMap_map]
  refine flatMap_congr fun p _ => ?_
  cases p <;> rfl

theorem length_map_instruction (ps : List Piece) : Code.length (ps.map Piece.instruction) = size ps := by
  rw [← length_encode, encode_eq, Code.length_flatMap_encode]

/-- Where the operands of the jumps to the end of the loop are, for pieces from `start` on. -/
def breaks (start : Nat) : List Piece → List Nat
  | [] => []
  | .write i :: ps => breaks (start + i.size) ps
  | .break_ :: ps => (start + 1) :: breaks (start + 3) ps

@[simp] theorem breaks_append (start : Nat) (ps qs : List Piece) :
    breaks start (ps ++ qs) = breaks start ps ++ breaks (start + size ps) qs := by
  induction ps generalizing start with
  | nil => simp [breaks]
  | cons p ps ih =>
    cases p with
    | write i =>
      rw [cons_append, breaks, breaks, ih, size_cons, Nat.add_assoc]
      rfl
    | break_ =>
      rw [cons_append, breaks, breaks, ih, size_cons, cons_append, Nat.add_assoc]
      rfl

@[simp] theorem breaks_written (start : Nat) (is : List Instruction) : breaks start (written is) = [] := by
  induction is generalizing start with
  | nil => rfl
  | cons i is ih => exact ih _

end Pieces

def addBreaks (operands : List Nat) : List Loop → List Loop
  | [] => []
  | l :: outer => { l with breaks := l.breaks ++ operands.toArray } :: outer

@[simp] theorem addBreaks_nil (loops : List Loop) : addBreaks [] loops = loops := by
  cases loops <;> simp [addBreaks]

theorem addBreaks_append (xs ys : List Nat) (loops : List Loop) :
    addBreaks (xs ++ ys) loops = addBreaks ys (addBreaks xs loops) := by
  cases loops <;> simp [addBreaks]

namespace Scopes

private theorem addBreak_eq_onCurrent (s : Scopes) (operand : Nat) :
    s.addBreak operand = s.onCurrent fun scope => { scope with loops := addBreaks [operand] scope.loops } := by
  obtain ⟨⟨_, _, _, _, _, _, _, _, loops⟩, _⟩ := s
  cases loops <;> simp [addBreak, onCurrent, addBreaks]

/-- The routines in the pool of the current function were written as logs say. -/
def PoolLogged (s : Scopes) : Prop :=
  ∀ (index : Nat) q, s.current.draft.constants[index]? = some (.routine q) → q.Logged

/-- The pieces of code that were added between two states of the scopes. -/
structure Wrote (s : Scopes) (ps : List Piece) (s' : Scopes) : Prop where
  bytes : s'.current.draft.bytes.toList = s.current.draft.bytes.toList ++ Pieces.encode ps
  loops : s'.current.loops = addBreaks (Pieces.breaks s.here ps) s.current.loops
  around : s'.enclosing.map Scope.desk = s.enclosing.map Scope.desk
  logs : ∃ is, s.current.draft.Logs is s'.current.draft ∧ List.Forall₂ Instruction.Alike (ps.map Piece.instruction) is
  pool : s.PoolLogged → s'.PoolLogged

theorem here_eq_length (s : Scopes) : s.here = s.current.draft.bytes.toList.length :=
  s.current.draft.size_eq_length

namespace Wrote

variable {s s' s'' : Scopes} {ps qs : List Piece}

theorem of_desk (hcurrent : s'.current.desk = s.current.desk)
    (henclosing : s'.enclosing.map Scope.desk = s.enclosing.map Scope.desk) : s.Wrote [] s' := by
  obtain ⟨hdraft, hloops⟩ := Prod.mk.inj hcurrent
  refine ⟨by simp [hdraft], by simpa [Pieces.breaks] using hloops, henclosing, ⟨[], hdraft ▸ .refl, .nil⟩, fun hs => ?_⟩
  rwa [PoolLogged, hdraft]

theorem refl (s : Scopes) : s.Wrote [] s := .of_desk rfl rfl

theorem here_eq (h : s.Wrote ps s') : s'.here = s.here + Pieces.size ps := by
  rw [here_eq_length, h.bytes, length_append, Pieces.length_encode, here_eq_length]

theorem trans (h : s.Wrote ps s') (h' : s'.Wrote qs s'') : s.Wrote (ps ++ qs) s'' where
  bytes := by rw [h'.bytes, h.bytes, Pieces.encode_append, append_assoc]
  loops := by rw [h'.loops, h.loops, ← addBreaks_append, h.here_eq, Pieces.breaks_append]
  around := h'.around.trans h.around
  logs := by
    obtain ⟨is, hlogs, halike⟩ := h.logs
    obtain ⟨js, hlogs', halike'⟩ := h'.logs
    rw [map_append]
    exact ⟨is ++ js, hlogs.trans hlogs', rel_append halike halike'⟩
  pool hs := h'.pool (h.pool hs)

theorem emit (hi : i.Legible s.current.draft.constants) (line : Nat) : s.Wrote [.write i] (s.emit i line) where
  bytes := (Draft.emit_bytes _ _ _).trans (by simp [Pieces.encode])
  loops := by
    simp only [Pieces.breaks, addBreaks_nil]
    rfl
  around := rfl
  logs := ⟨[i], .emit line .refl hi, .cons .same .nil⟩
  pool hs index q hq := hs index q (Draft.emit_constants _ _ _ ▸ hq)

theorem idle (h : s.Wrote ps s') (h' : s'.Wrote [] s'') : s.Wrote ps s'' := by
  simpa using h.trans h'

theorem emit' (h : s.Wrote ps s') (hi : i.Legible s'.current.draft.constants) (line : Nat) :
    s.Wrote (ps ++ [.write i]) (s'.emit i line) := h.trans (.emit hi line)

theorem emitAll (s : Scopes) {is} (his : ∀ i ∈ is, ∀ constants, i.Legible constants) (line : Nat) :
    s.Wrote (written is) (s.onCurrent (·.emitAll is line)) := by
  induction is generalizing s with
  | nil => exact .refl s
  | cons i is ih =>
    rw [forall_mem_cons] at his
    exact (emit (his.1 _) line).trans (ih (s.emit i line) his.2)

theorem constant {k : Constant} {index : Nat} (hadd : s.current.draft.addConstant k = (.ok index, d))
    (hk : ∀ q, k = .routine q → q.Logged) : s.Wrote [] (s.withDraft d) := by
  have hlogs : s.current.draft.Logs [] (s.current.draft.addConstant k).2 := .constant k .refl
  have hbytes := s.current.draft.addConstant_bytes k
  rw [hadd] at hlogs hbytes
  refine ⟨?_, ?_, rfl, ⟨[], hlogs, .nil⟩, fun hs i q hq => ?_⟩
  · show d.bytes.toList = _
    rw [hbytes, Pieces.encode_nil, append_nil]
  · exact (addBreaks_nil _).symm
  · have hq : d.constants[i]? = some (.routine q) := hq
    rcases Draft.addConstant_ok hadd with ⟨hsame, _⟩ | ⟨hpushed, _⟩
    · exact hs i q (hsame ▸ hq)
    · rw [hpushed, Array.getElem?_push] at hq
      split at hq
      · exact hk q (Option.some.inj hq)
      · exact hs i q hq

theorem patch {jump} (hjump : Instruction.IsJump jump) {placeholder operand distance : Nat}
    (h : s.Wrote (ps ++ .write (jump placeholder) :: qs) s') (hoperand : operand = s.here + Pieces.size ps + 1)
    (hpatch : (s'.current.draft.patchJump operand).2 = s'.current.draft.patchWord operand distance) :
    s.Wrote (ps ++ .write (jump distance) :: qs)
      (s'.withDraft (s'.current.draft.patchWord operand distance)) := by
  obtain ⟨op, hop⟩ := hjump.encode_eq
  have hencode : ∀ d, Pieces.encode (ps ++ .write (jump d) :: qs)
      = Pieces.encode ps ++ (op :: wordBytes d) ++ Pieces.encode qs := by
    intro d
    rw [Pieces.encode_append, append_assoc]
    show _ ++ ((jump d).encode ++ Pieces.encode qs) = _
    rw [hop]
  refine ⟨?_, ?_, h.around, ?_, h.pool⟩
  · have hbytes := h.bytes
    rw [hencode, ← append_assoc, ← append_assoc] at hbytes
    have hlength : operand = (s.current.draft.bytes.toList ++ Pieces.encode ps).length + 1 := by
      rw [length_append, Pieces.length_encode, hoperand, Scopes.here_eq_length]
    rw [hencode, ← append_assoc, ← append_assoc, hlength]
    exact Draft.patchWord_bytes hbytes distance
  · have hloops := h.loops
    rw [Pieces.breaks_append, Pieces.breaks] at hloops ⊢
    rw [hjump.size_eq] at hloops ⊢
    exact hloops
  · obtain ⟨is, hlogs, halike⟩ := h.logs
    rw [map_append] at halike ⊢
    obtain ⟨front, rest, rfl, hfront, hrest⟩ := exists_append_of_forall₂ _ _ halike
    obtain ⟨i, back, hi, hback, rfl⟩ := forall₂_cons_left_iff.mp hrest
    obtain ⟨written, rfl⟩ := hi.of_jump hjump
    refine ⟨_, hpatch ▸ hlogs.patch ⟨front, jump, written, back, hjump, rfl, ?_⟩,
      rel_append hfront (.cons (.jumps hjump) hback)⟩
    rw [hoperand, Code.length_alike hfront, Pieces.length_map_instruction]
    rfl

theorem left {outer : Scopes} (h : s.Wrote ps s')
    (henclosing : s.enclosing = outer.current :: outer.enclosing) : outer.Wrote [] s'.left := by
  obtain ⟨current, enclosing⟩ := s'
  have haround := h.around
  rw [henclosing, map_cons] at haround
  obtain ⟨e, rest, rfl, hcurrent, hrest⟩ := map_eq_cons_iff.mp haround
  exact .of_desk hcurrent hrest

theorem addBreak (h : s.Wrote (ps ++ [.write (.jump maxWord)]) s') :
    s.Wrote (ps ++ [.break_]) (s'.addBreak (s.here + Pieces.size ps + 1)) := by
  have hloops := h.loops
  have hlogs := h.logs
  simp only [Pieces.breaks_append, Pieces.breaks, append_nil] at hloops
  rw [map_append] at hlogs
  rw [addBreak_eq_onCurrent]
  refine ⟨?_, ?_, h.around, by rwa [map_append], h.pool⟩
  · refine h.bytes.trans ?_
    rw [Pieces.encode_append, Pieces.encode_append]
    rfl
  · show addBreaks _ s'.current.loops = _
    rw [hloops, ← addBreaks_append, Pieces.breaks_append]
    rfl

theorem logged (h : s.Wrote ps s') (hdraft : s.current.draft = {}) : s'.current.toRoutine.Logged := by
  obtain ⟨is, hlogs, _⟩ := h.logs
  have hempty : s.PoolLogged := by
    intro index q hq
    rw [hdraft] at hq
    cases hq
  intro q hq
  cases hq with
  | self => exact ⟨is, s'.current.draft, hdraft ▸ hlogs, rfl⟩
  | inside hconstant hwithin => exact h.pool hempty _ _ hconstant _ hwithin

end Wrote

/-- The innermost loop is the one of the site, and the next instruction stands as far behind the place
where `continue` goes as the site says. -/
def AtSite (s : Scopes) : Option LoopSite → Prop
  | none => s.current.loops = []
  | some site => ∃ l outer, s.current.loops = l :: outer ∧ l.depth = site.depth ∧
      l.continueAt + site.back = s.here

theorem Wrote.atSite {s s' : Scopes} {ps} {site : Option LoopSite} (h : s.Wrote ps s')
    (hsite : s.AtSite site) : s'.AtSite (site.map (·.after (Pieces.size ps))) := by
  cases site with
  | none =>
    have hnil : s.current.loops = [] := hsite
    have hloops := h.loops
    rw [hnil] at hloops
    exact hloops
  | some site =>
    obtain ⟨l, outer, hcons, hdepth, hback⟩ := hsite
    have hloops := h.loops
    rw [hcons] at hloops
    refine ⟨_, outer, hloops, hdepth, ?_⟩
    show l.continueAt + (site.back + Pieces.size ps) = s'.here
    rw [h.here_eq, ← hback, Nat.add_assoc]

theorem Wrote.atSite_nil {s s' : Scopes} {site} (h : s.Wrote [] s') (hsite : s.AtSite site) : s'.AtSite site := by
  cases site <;> exact h.atSite hsite

def openLoop (s : Scopes) (l : Loop) : Scopes :=
  s.onCurrent fun scope => { scope with loops := l :: scope.loops }

def closeLoop (s : Scopes) : Scopes :=
  s.onCurrent fun scope => { scope with loops := scope.loops.tail }

namespace Wrote

variable {s s' : Scopes} {ps : List Piece}

theorem openLoop {is} (h : s.Wrote (written is) s') (l : Loop) : (s.openLoop l).Wrote (written is) (s'.openLoop l) := by
  refine ⟨h.bytes, ?_, h.around, h.logs, h.pool⟩
  have hloops := h.loops
  rw [Pieces.breaks_written, addBreaks_nil] at hloops ⊢
  exact congrArg (l :: ·) hloops

theorem closeLoop {l : Loop} (h : (s.openLoop l).Wrote ps s') :
    s.Wrote (written (ps.map Piece.instruction)) s'.closeLoop := by
  refine ⟨?_, ?_, h.around, ?_, h.pool⟩
  · rw [Pieces.encode_written, ← Pieces.encode_eq]
    exact h.bytes
  · rw [Pieces.breaks_written, addBreaks_nil]
    exact congrArg List.tail h.loops
  · rw [map_instruction_written]
    exact h.logs

end Wrote

end Scopes

end Mudscript
