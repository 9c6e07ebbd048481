import Mudscript.Proofs.Execution
import Mudscript.Proofs.Mirror

/-!
# Where jumps land

The distance of a jump is computed by the compiler, at one moment for a jump forward and at another for a
jump back, and it is used by the machine, which is behind the whole instruction by then. The two agree: a
jump that is taken goes exactly to where it was aimed. A distance that does not fit into two bytes is
reported, and no other is.
-/

namespace Mudscript

open Machine Exec

variable {distance offset : Nat} {i : Nat → Instruction}

/-! ### Machines at a jump -/

namespace Machine

/-- The innermost call is at an offset where its code has the three bytes that a draft has there, and no
program is to be started before. -/
structure StandsAt (m : Machine) (d : Draft) (offset : Nat) : Prop where
  fetches : ∃ f, m.frames.back? = some f ∧ f.position = offset ∧
    ∀ k < 3, f.code.bytes[offset + k]? = d.bytes[offset + k]?
  noProgram : ∀ p, m.stack.back? ≠ some (.program p)

/-- The next step takes the innermost call to an offset, and does nothing else. -/
def GoesTo (m : Machine) (target : Nat) : Prop :=
  ∃ events, step m = .ok () (({ m with events } : Machine).goTo target)

end Machine

theorem Code.reads_word {code : Code} (hi : i = .jump ∨ i = .jumpIfFalse ∨ i = .loop) (hle : distance ≤ maxWord)
    (hbytes : ∀ k < 3, code.bytes[offset + k]? = (i distance).encode[k]?) : code.Reads offset (i distance) := by
  have hbyte : ∀ k < 3, code.byteAt (offset + k) = (i distance).encode[k]?.getD 0 := fun k hk => by
    rw [byteAt, hbytes k hk]
  have hword : ∀ op, (i distance).encode = op :: wordBytes distance → code.wordAt (offset + 1) = distance := by
    intro op hop
    rw [wordAt, hbyte 1 (by decide), Nat.add_assoc offset 1 1, hbyte 2 (by decide), hop]
    exact word_eq (Nat.lt_succ_of_le hle)
  have hopcode := hbyte 0 (by decide)
  have hfirst := hbytes 0 (by decide)
  refine ⟨?_, ?_⟩
  · rcases hi with rfl | rfl | rfl <;> exact (Array.getElem?_eq_some_iff.mp hfirst).1
  · rw [instructionAt?, fetch?, show code.byteAt offset = _ from hopcode]
    rcases hi with rfl | rfl | rfl
    · exact congrArg (fun n => some (Instruction.jump n)) (hword _ rfl)
    · exact congrArg (fun n => some (Instruction.jumpIfFalse n)) (hword _ rfl)
    · exact congrArg (fun n => some (Instruction.loop n)) (hword _ rfl)

theorem Machine.StandsAt.goesTo {m : Machine} {d : Draft} {target : Nat}
    (h : m.StandsAt d offset) (hi : i = .jump ∨ i = .jumpIfFalse ∨ i = .loop) (hle : distance ≤ maxWord)
    (hbytes : ∀ k < 3, d.bytes[offset + k]? = (i distance).encode[k]?)
    (htarget : (i distance).far? (offset + 3) = some target)
    (htaken : i = .jumpIfFalse → (m.stack.back?.getD .nil).isTruthy = false) : m.GoesTo target := by
  obtain ⟨f, hback, hposition, hsame⟩ := h.fetches
  subst hposition
  have hreads : f.code.Reads f.position (i distance) := Code.reads_word hi hle fun k hk =>
    (hsame k hk).trans (hbytes k hk)
  have hstart : startProgram m = .ok () m := startProgram_eq h.noProgram
  have hstep : step.Gives m (fun _ m' => ∃ events, m' = ({ m with events } : Machine).goTo target)
      fun _ _ => False := by
    apply gives_step_of_reads
    rw [Gives, hstart]
    refine ⟨f, i distance, hback, hreads, fun events => ?_⟩
    rcases hi with rfl | rfl | rfl
    · exact ⟨events, (goTo_goTo _ _ _).trans (congrArg _ (Option.some.inj htarget))⟩
    · have hfalse := htaken rfl
      rw [Array.back?_eq_getElem?] at hfalse
      unfold execute
      rw [gives_bind, gives_peek, gives_ite]
      refine ⟨fun htrue => absurd (hfalse.symm.trans htrue) (by decide), fun _ => ?_⟩
      exact ⟨events, (goTo_goTo _ _ _).trans (congrArg _ (Option.some.inj htarget))⟩
    · exact ⟨events, (goTo_goTo _ _ _).trans (congrArg _ (Option.some.inj htarget))⟩
  cases hresult : step m with
  | ok _ m' =>
    obtain ⟨events, rfl⟩ := hstep.ok hresult
    exact ⟨events, hresult⟩
  | error stop m' => exact (hstep.error hresult).elim

/-! ### Distances -/

def Compiler.draft (c : Compiler) : Draft := c.scopes.current.draft

namespace Draft

variable {d d' : Draft} {jump : Nat → Instruction} {before rest : List UInt8}

theorem patchJump_eq (hjump : Instruction.IsJump jump)
    (hbytes : d.bytes.toList = before ++ (jump maxWord).encode ++ rest) :
    d.patchJump (before.length + 1) = if rest.length ≤ maxWord
      then (none, d.patchWord (before.length + 1) rest.length) else (some .jumpTooLarge, d) := by
  have hsize : d.size - (before.length + 1) - 2 = rest.length := by
    rw [size_eq_length, hbytes, List.length_append, List.length_append, Instruction.length_encode, hjump.size_eq]
    omega
  rw [patchJump, hsize]

theorem patchWord_bytes_of_ne (d : Draft) {operand value k : Nat} (h : k ≠ operand) (h' : k ≠ operand + 1) :
    (d.patchWord operand value).bytes[k]? = d.bytes[k]? := by
  show ((d.bytes.setIfInBounds _ _).setIfInBounds _ _)[k]? = _
  rw [Array.getElem?_setIfInBounds_ne (Ne.symm h'), Array.getElem?_setIfInBounds_ne (Ne.symm h)]

theorem patchWord_getElem? (hjump : Instruction.IsJump jump)
    (hbytes : d.bytes.toList = before ++ (jump maxWord).encode ++ rest)
    (value : Nat) : ∀ k < 3, (d.patchWord (before.length + 1) value).bytes[before.length + k]?
      = (jump value).encode[k]? := by
  intro k hk
  obtain ⟨op, hop⟩ := hjump.encode_eq
  rw [hop] at hbytes
  rw [← Array.getElem?_toList, patchWord_bytes hbytes, List.append_assoc, List.getElem?_append_right (by omega),
    Nat.add_sub_cancel_left, List.getElem?_append_left (show k < 3 from hk), hop]

end Draft

theorem Compile.emitJump_eq {jump : Nat → Instruction} (hjump : Instruction.IsJump jump) (c : Compiler) :
    (emitJump jump c).1 = c.draft.bytes.toList.length + 1 ∧ (emitJump jump c).2.draft.size = c.draft.size + 3 ∧
      (emitJump jump c).2.draft.bytes.toList = c.draft.bytes.toList ++ (jump maxWord).encode := by
  have hsize : (emitJump jump c).2.draft.size = c.draft.size + 3 := by
    rw [← hjump.size_eq maxWord]
    exact Draft.emit_size _ _ _
  refine ⟨?_, hsize, Draft.emit_bytes _ _ _⟩
  show (emitJump jump c).2.draft.size - 2 = _
  rw [hsize, Draft.size_eq_length]
  omega

/-- A jump forward is patched so that it lands where the code ends at that time, and a jump back is written so that
it lands where it is told to. Jumps over too much code are reported. -/
theorem jumps_land (c : Compiler) :
    (∀ (jump : Nat → Instruction) (c' : Compiler) (code : List UInt8), Instruction.IsJump jump →
      let operand := (Compile.emitJump jump c).1
      let emitted := (Compile.emitJump jump c).2
      c'.draft.bytes.toList = emitted.draft.bytes.toList ++ code →
      let patched := (Compile.patchJump operand c').2
      operand + 2 = emitted.draft.size ∧ operand + 2 + code.length = c'.draft.size ∧
      (code.length ≤ 65535 →
        (∃ d, patched = { c' with scopes := c'.scopes.withDraft d } ∧ d.lines = c'.draft.lines ∧
          d.constants = c'.draft.constants ∧ d.size = c'.draft.size ∧
          ∀ k, k ≠ operand → k ≠ operand + 1 → d.bytes[k]? = c'.draft.bytes[k]?) ∧
        ∀ m : Machine, m.StandsAt patched.draft c.draft.size →
          (jump = .jumpIfFalse → (m.stack.back?.getD .nil).isTruthy = false) → m.GoesTo c'.draft.size) ∧
      ((c'.draft.patchJump operand).1 = some .jumpTooLarge ↔ 65535 < code.length) ∧
      (65535 < code.length → patched.draft = c'.draft ∧
        patched = c'.report ⟨c'.previous.line, .ofToken c'.previous, .code .jumpTooLarge⟩)) ∧
    ∀ start ≤ c.draft.size,
      let looped := (Compile.emitLoop start c).2
      let distance := c.draft.size + 3 - start
      start + distance = c.draft.size + 3 ∧
      (distance ≤ 65535 → looped = { c with scopes := c.scopes.emit (.loop distance) c.previous.line } ∧
        ∀ m : Machine, m.StandsAt looped.draft c.draft.size → m.GoesTo start) ∧
      (c.draft.loopDistance start = .error .loopTooLarge ↔ 65535 < distance) ∧
      (65535 < distance → looped = (Compile.emit (.loop 0)
        (c.report ⟨c.previous.line, .ofToken c.previous, .code .loopTooLarge⟩)).2) := by
  constructor
  · intro jump c' code hjump operand emitted hcode patched
    obtain ⟨hoperand, hsize, hemitted⟩ : operand = _ ∧ emitted.draft.size = _ ∧ emitted.draft.bytes.toList = _ :=
      Compile.emitJump_eq hjump c
    rw [hemitted] at hcode
    have hpatch : c'.scopes.current.draft.patchJump operand = _ := hoperand ▸ Draft.patchJump_eq hjump hcode
    have hpatched : patched = (Compile.patchJump operand c').2 := rfl
    rw [Compile.patchJump_apply, hpatch] at hpatched
    have hlength : operand + 2 + code.length = c'.draft.size := by
      rw [Draft.size_eq_length c'.draft, hcode, List.length_append, List.length_append, Instruction.length_encode,
        hjump.size_eq, hoperand]
    refine ⟨by rw [hoperand, hsize, Draft.size_eq_length], hlength, fun hle => ?_, ?_, fun hlt => ?_⟩
    · have hle : code.length ≤ maxWord := hle
      rw [if_pos hle] at hpatched hpatch
      have hkept : (c'.draft.patchWord operand code.length).size = c'.draft.size := by
        have hkept := c'.draft.patchJump_size operand
        rwa [show c'.draft.patchJump operand = _ from hpatch] at hkept
      refine ⟨⟨_, hpatched, rfl, rfl, hkept, fun k => c'.draft.patchWord_bytes_of_ne⟩, fun m hm htaken => ?_⟩
      rw [hpatched, Draft.size_eq_length c.draft] at hm
      refine hm.goesTo (i := jump) (hjump.eq.imp_right .inl) hle ?_ ?_ htaken
      · rw [hoperand]
        exact Draft.patchWord_getElem? hjump hcode code.length
      · have hend : c.draft.bytes.toList.length + 3 + code.length = c'.draft.size := by rw [← hlength, hoperand]
        obtain ⟨rfl | rfl⟩ := hjump <;> exact congrArg some hend
    · rw [show c'.draft.patchJump operand = _ from hpatch, ← Nat.not_le]
      show _ ↔ ¬ code.length ≤ maxWord
      split <;> simp [*]
    · rw [if_neg (show ¬ code.length ≤ maxWord from Nat.not_le.mpr hlt)] at hpatched
      exact ⟨by rw [hpatched]; exact congrArg (·.current.draft) (Compiler.report_scopes _ _), hpatched⟩
  · intro start hstart looped distance
    have hlooped : looped = (Compile.emitLoop start c).2 := rfl
    have hdistance : c.scopes.current.draft.loopDistance start
        = if distance ≤ maxWord then .ok distance else .error .loopTooLarge := rfl
    rw [Compile.emitLoop_apply, hdistance] at hlooped
    have hsum : start + distance = c.draft.size + 3 := by
      show start + (c.draft.size + 3 - start) = _
      omega
    refine ⟨hsum, fun hle => ?_, ?_, fun hlt => ?_⟩
    · have hle : distance ≤ maxWord := hle
      rw [if_pos hle] at hlooped
      have hbytes : looped.draft.bytes.toList = c.draft.bytes.toList ++ (Instruction.loop distance).encode := by
        rw [hlooped]
        exact Draft.emit_bytes _ _ _
      refine ⟨hlooped, fun m hm => hm.goesTo (i := .loop) (.inr (.inr rfl)) hle (fun k _ => ?_) ?_ ?_⟩
      · rw [← Array.getElem?_toList, hbytes, Draft.size_eq_length, List.getElem?_append_right (Nat.le_add_right _ _),
          Nat.add_sub_cancel_left]
      · show some (c.draft.size + 3 - distance) = some start
        rw [← hsum, Nat.add_sub_cancel]
      · exact fun hne => nomatch congrFun hne 0
    · rw [show c.draft.loopDistance start = _ from hdistance, ← Nat.not_le]
      show _ ↔ ¬ distance ≤ maxWord
      split <;> simp [*]
    · rw [if_neg (show ¬ distance ≤ maxWord from Nat.not_le.mpr hlt)] at hlooped
      exact hlooped

/-- A branch over a `POP`, and behind it a jump back to its start. -/
theorem jumps_land_branch : let c : Compiler := .start ⟨[], 1⟩ (.start .script "" none)
    let popped := (Compile.emit .pop (Compile.emitJump .jumpIfFalse c).2).2
    let patched := (Compile.patchJump (Compile.emitJump .jumpIfFalse c).1 popped).2
    let looped := (Compile.emitLoop 0 patched).2
    let routine : Routine := ⟨.script, "", 0, 0, none, looped.draft.toCode⟩
    let m (position : Nat) : Machine :=
      { Machine.start {} ⟨.memory ∅, "", ∅, 0⟩ with stack := #[.nil], frames := #[⟨⟨0, routine, #[]⟩, position, 0⟩] }
    looped.draft.bytes.toList = [.jumpIfFalse 1, .pop, .loop 7].flatMap Instruction.encode ∧
      (m 0).GoesTo 4 ∧ (m 4).GoesTo 0 := by
  intro c popped patched looped routine m
  have hstands : ∀ d : Draft, ∀ position, (∀ k < 3, looped.draft.bytes[position + k]? = d.bytes[position + k]?) →
      (m position).StandsAt d position := fun d position hbytes => ⟨⟨_, rfl, rfl, hbytes⟩, fun _ => nofun⟩
  obtain ⟨_, _, hforward, _⟩ := (jumps_land c).1 .jumpIfFalse popped [Opcode.pop.toByte] ⟨.inr rfl⟩ (by decide)
  obtain ⟨_, hback, _⟩ := (jumps_land patched).2 0 (Nat.zero_le _)
  refine ⟨by decide, (hforward (by decide)).2 (m 0) (hstands _ 0 (by decide)) fun _ => rfl, ?_⟩
  exact (hback (by decide)).2 (m 4) (hstands _ 4 (by decide))

end Mudscript
