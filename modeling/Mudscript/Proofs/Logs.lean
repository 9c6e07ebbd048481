import Mudscript.Proofs.Decoding
import Mudscript.Proofs.Draft

/-!
# Logs of what is written

The log of a draft is the list of instructions that were written to it, as they were when they were
written. Code is written from front to back. What is changed afterwards is the distance of a forward jump,
and no instruction is longer or shorter for that, so the log says which instructions the finished code has,
and where they start. A compilation does nothing to its drafts but what is in a log: it writes instructions,
adds constants and fills in distances of jumps it has written before.
-/

namespace Mudscript

open List

theorem exists_append_of_forall₂ {α β : Type} {R : α → β → Prop} (xs ys : List α) {zs : List β}
    (h : List.Forall₂ R (xs ++ ys) zs) :
    ∃ front back, zs = front ++ back ∧ List.Forall₂ R xs front ∧ List.Forall₂ R ys back := by
  induction xs generalizing zs with
  | nil => exact ⟨[], zs, rfl, .nil, h⟩
  | cons x xs ih =>
    obtain ⟨z, rest, hz, hrest, rfl⟩ := forall₂_cons_left_iff.mp h
    obtain ⟨front, back, rfl, hfront, hback⟩ := ih hrest
    exact ⟨z :: front, back, rfl, .cons hz hfront, hback⟩

/-! ### Jumps -/

theorem Draft.patchWord_bytes {d : Draft} {before rest : List UInt8} {op x y : UInt8}
    (h : d.bytes.toList = before ++ [op, x, y] ++ rest) (value : Nat) :
    (d.patchWord (before.length + 1) value).bytes.toList = before ++ op :: wordBytes value ++ rest := by
  show ((d.bytes.setIfInBounds _ _).setIfInBounds _ _).toList = _
  rw [Array.toList_setIfInBounds, Array.toList_setIfInBounds, h, append_assoc,
    set_append_right _ _ (by omega), set_append_right _ _ (by omega), append_assoc,
    Nat.add_sub_cancel_left, Nat.add_assoc before.length 1 1, Nat.add_sub_cancel_left]
  rfl

/-- The forward jumps, which differ from each other only in their distance. -/
structure Instruction.IsJump (jump : Nat → Instruction) : Prop where
  eq : jump = .jump ∨ jump = .jumpIfFalse

namespace Instruction.IsJump

variable {jump : Nat → Instruction} (h : IsJump jump)

include h

theorem size_eq (d : Nat) : (jump d).size = 3 := by
  obtain ⟨rfl | rfl⟩ := h <;> rfl

theorem encode_eq : ∃ op : UInt8, ∀ d, (jump d).encode = op :: wordBytes d := by
  obtain ⟨rfl | rfl⟩ := h
  · exact ⟨Opcode.jump.toByte, fun _ => rfl⟩
  · exact ⟨Opcode.jumpIfFalse.toByte, fun _ => rfl⟩

end Instruction.IsJump

variable {j : Instruction} {index line : Nat} {jump : Nat → Instruction}

/-! ### Reading operations back -/

/-- The end of an instruction can be found when it is read. -/
def Instruction.Legible (constants : Array Constant) : Instruction → Prop
  | .closure index captures => index < 65536 ∧
      ∃ q, constants[index]? = some (.routine q) ∧ captures.length = q.upvalueCount
  | _ => True

theorem Instruction.Legible.mono {constants constants'} {i : Instruction} (h : i.Legible constants)
    (hkept : ∀ (index : Nat) c, constants[index]? = some c → constants'[index]? = some c) : i.Legible constants' := by
  cases i with
  | closure index captures =>
    obtain ⟨hlt, q, hq, hlength⟩ := h
    exact ⟨hlt, q, hkept index _ hq, hlength⟩
  | _ => trivial

theorem Instruction.IsJump.legible (h : IsJump jump) (distance : Nat) (constants : Array Constant) :
    (jump distance).Legible constants := by
  obtain ⟨rfl | rfl⟩ := h <;> trivial

theorem Code.exists_instructionAt? {code : Code} {before rest : List UInt8} {i : Instruction}
    (hbytes : code.bytes.toList = before ++ i.encode ++ rest) (hlegible : i.Legible code.constants) :
    ∃ j, code.instructionAt? before.length = some j ∧ j.size = i.size := by
  have hsplit : code.bytes.toList = before ++ (i.opcode.toByte :: (i.operands ++ rest)) := by
    rw [hbytes, append_assoc]
    rfl
  have hopcode := byteAt_eq hsplit 0
  rw [Nat.add_zero] at hopcode
  refine ⟨(Fetch.operands i.opcode code (before.length + 1)).1, ?_, ?_⟩
  · rw [instructionAt?, fetch?, hopcode]
    show ((Opcode.ofByte? i.opcode.toByte).map _).map _ = _
    rw [Opcode.ofByte?_toByte]
    rfl
  · cases i with
    | closure n captures =>
      obtain ⟨hlt, q, hq, hlength⟩ := hlegible
      have hword : code.wordAt (before.length + 1) = n := by
        rw [wordAt, Nat.add_assoc before.length 1 1, byteAt_eq hsplit 1, byteAt_eq hsplit 2]
        exact word_eq hlt
      show 3 + 2 * (Fetch.captures (code.captureCount (code.wordAt (before.length + 1))) code _).1.length = _
      rw [Fetch.length_captures, hword, captureCount, routineAt?, hq, Instruction.size, hlength]
    | _ => rfl

/-! ### Logs of drafts -/

namespace Code

def starts (offset : Nat) : List Instruction → List Nat
  | [] => []
  | i :: is => offset :: starts (offset + i.size) is

/-- Among instructions that are written from an offset on there is a forward jump, with its operand where it
is said to be. -/
def HasJump (offset : Nat) (is : List Instruction) (operand : Nat) : Prop :=
  ∃ front jump distance back, Instruction.IsJump jump ∧ is = front ++ jump distance :: back ∧
    operand = offset + length front + 1

variable {offset operand : Nat} {is js : List Instruction}

theorem HasJump.append_left (h : HasJump (offset + length is) js operand) : HasJump offset (is ++ js) operand := by
  obtain ⟨front, jump, distance, back, hjump, rfl, rfl⟩ := h
  exact ⟨is ++ front, jump, distance, back, hjump, by simp, by simp [Nat.add_assoc]⟩

end Code

/-- The instructions were written to a draft, in this order. -/
inductive Draft.Logs (d : Draft) : List Instruction → Draft → Prop
  | refl : Logs d [] d
  | emit {is d' i} (line : Nat) : Logs d is d' → i.Legible d'.constants → Logs d (is ++ [i]) (d'.emit i line)
  | constant {is d'} (k : Constant) : Logs d is d' → Logs d is (d'.addConstant k).2
  | patch {is d' operand} : Logs d is d' → Code.HasJump d.size is operand → Logs d is (d'.patchJump operand).2

namespace Draft

theorem patchJump_cases (d : Draft) (operand : Nat) :
    (d.patchJump operand).2 = d ∨ ∃ distance, (d.patchJump operand).2 = d.patchWord operand distance := by
  rw [patchJump]
  split
  · exact .inr ⟨_, rfl⟩
  · exact .inl rfl

theorem patchJump_size (d : Draft) (operand : Nat) : (d.patchJump operand).2.size = d.size := by
  rcases d.patchJump_cases operand with heq | ⟨distance, heq⟩
  · rw [heq]
  · rw [heq]
    show ((d.bytes.setIfInBounds _ _).setIfInBounds _ _).size = _
    rw [Array.size_setIfInBounds, Array.size_setIfInBounds]
    rfl

theorem emit_lines (d : Draft) (i : Instruction) (line : Nat) :
    (d.emit i line).lines.toList = d.lines.toList ++ List.replicate i.size line := by
  have happend : ∀ (bytes : List UInt8) (d : Draft),
      (d.append bytes line).lines.toList = d.lines.toList ++ List.replicate bytes.length line := by
    intro bytes
    induction bytes with
    | nil => exact fun d => (append_nil _).symm
    | cons b rest ih =>
      intro d
      refine (ih (d.pushByte b line)).trans ?_
      simp [pushByte, replicate_succ]
  rw [emit, happend, Instruction.length_encode]

theorem emit_lines_size (d : Draft) (i : Instruction) (line : Nat) :
    (d.emit i line).lines.size = d.lines.size + i.size := by
  simpa using congrArg List.length (d.emit_lines i line)

end Draft

namespace Draft.Logs

variable {d d' d'' : Draft} {is js : List Instruction} {operand : Nat}

theorem size_eq (h : d.Logs is d') : d'.size = d.size + Code.length is := by
  induction h with
  | refl => rfl
  | emit line _ _ ih =>
    rw [emit_size, ih, Code.length_append]
    simp [Nat.add_assoc]
  | constant k _ ih => rw [Draft.size, addConstant_bytes, ← Draft.size, ih]
  | patch _ _ ih => rw [patchJump_size, ih]

theorem trans (h : d.Logs is d') (h' : d'.Logs js d'') : d.Logs (is ++ js) d'' := by
  induction h' with
  | refl => rwa [append_nil]
  | emit line _ hlegible ih =>
    rw [← append_assoc]
    exact ih.emit line hlegible
  | constant k _ ih => exact ih.constant k
  | patch _ hjump ih => exact ih.patch (h.size_eq ▸ hjump).append_left

end Draft.Logs

/-! ### What a log says of finished code -/

/-- Two instructions are the same, or forward jumps that differ in their distances. -/
inductive Instruction.Alike : Instruction → Instruction → Prop
  | same {i} : Alike i i
  | jumps {jump : Nat → Instruction} {distance distance'} : Instruction.IsJump jump →
      Alike (jump distance) (jump distance')

theorem Instruction.Alike.size_eq {i : Instruction} (h : i.Alike j) : j.size = i.size := by
  cases h with
  | same => rfl
  | jumps hjump => rw [hjump.size_eq, hjump.size_eq]

theorem Instruction.Alike.of_jump (hjump : Instruction.IsJump jump) {distance : Nat}
    (h : (jump distance).Alike j) : ∃ distance', j = jump distance' := by
  generalize hi : jump distance = i at h
  cases h with
  | same => exact ⟨distance, hi.symm⟩
  | @jumps jump' n n' hjump' =>
    obtain ⟨rfl | rfl⟩ := hjump <;> obtain ⟨rfl | rfl⟩ := hjump' <;> cases hi <;> exact ⟨n', rfl⟩

theorem Code.starts_alike {is js} (h : List.Forall₂ Instruction.Alike is js) (offset : Nat) :
    starts offset js = starts offset is := by
  induction h generalizing offset with
  | nil => rfl
  | cons hi _ ih => rw [starts, starts, ih, hi.size_eq]

theorem Code.length_alike {is js} (h : List.Forall₂ Instruction.Alike is js) : length js = length is := by
  induction h with
  | nil => rfl
  | cons hi _ ih => rw [length_cons, length_cons, ih, hi.size_eq]

namespace Draft.Logs

variable {d : Draft} {is : List Instruction}

/-- The bytes of a draft are those of the instructions that were written to it, but for distances. Each byte has a
line. -/
theorem exists_alike (h : Logs {} is d) : ∃ js, List.Forall₂ Instruction.Alike is js ∧
    d.bytes.toList = js.flatMap Instruction.encode ∧ (∀ j ∈ js, j.Legible d.constants) ∧ d.lines.size = d.size := by
  induction h with
  | refl => exact ⟨[], .nil, rfl, nofun, rfl⟩
  | @emit is d i line _ hlegible ih =>
    obtain ⟨js, halike, hbytes, hall, hlines⟩ := ih
    refine ⟨js ++ [i], rel_append halike (.cons .same .nil), ?_, fun j hj => ?_, ?_⟩
    · rw [emit_bytes, hbytes, flatMap_append, flatMap_singleton]
    · rw [emit_constants]
      rcases mem_append.mp hj with hj | hj
      · exact hall j hj
      · exact mem_singleton.mp hj ▸ hlegible
    · rw [emit_lines_size, emit_size, hlines]
  | @constant is d k _ ih =>
    obtain ⟨js, halike, hbytes, hall, hlines⟩ := ih
    refine ⟨js, halike, by rw [addConstant_bytes, hbytes], fun j hj => ?_, ?_⟩
    · exact (hall j hj).mono fun _ _ => addConstant_keeps k
    · rw [addConstant_lines, hlines, Draft.size, Draft.size, addConstant_bytes]
  | @patch is d operand _ hjump ih =>
    obtain ⟨js, halike, hbytes, hall, hlines⟩ := ih
    have hsize := d.patchJump_size operand
    rcases d.patchJump_cases operand with heq | ⟨distance, heq⟩
    · rw [heq]
      exact ⟨js, halike, hbytes, hall, hlines⟩
    rw [heq] at hsize ⊢
    obtain ⟨front, jump, old, back, hjump, rfl, rfl⟩ := hjump
    obtain ⟨front', rest, rfl, hfront, hrest⟩ := exists_append_of_forall₂ front _ halike
    obtain ⟨j, back', hj, hback, rfl⟩ := forall₂_cons_left_iff.mp hrest
    obtain ⟨old', rfl⟩ := hj.of_jump hjump
    obtain ⟨op, hop⟩ := hjump.encode_eq
    refine ⟨front' ++ jump distance :: back', rel_append hfront (.cons (.jumps hjump) hback), ?_, fun j hj => ?_,
      hlines.trans hsize.symm⟩
    · rw [flatMap_append, flatMap_cons, hop, ← append_assoc] at hbytes
      have hpatched := Draft.patchWord_bytes hbytes distance
      rw [Code.length_flatMap_encode, Code.length_alike hfront] at hpatched
      rw [flatMap_append, flatMap_cons, hop, ← append_assoc, ← hpatched]
      show (d.patchWord (0 + Code.length front + 1) distance).bytes.toList = _
      rw [Nat.zero_add]
    · rcases mem_append.mp hj with hj | hj
      · exact hall j (mem_append_left _ hj)
      rcases mem_cons.mp hj with rfl | hj
      · obtain ⟨rfl | rfl⟩ := hjump <;> trivial
      · exact hall j (mem_append_right _ (mem_cons_of_mem _ hj))

end Draft.Logs

/-- The code of a routine, and of each routine written in it, was written as a log says. -/
def Routine.Logged (r : Routine) : Prop :=
  ∀ q, r.Within q → ∃ is d, Draft.Logs {} is d ∧ q.code = d.toCode

end Mudscript
