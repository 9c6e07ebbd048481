import Mudscript.Proofs.Edits
import Mudscript.Proofs.Logs

/-!
# Lines

Each byte of code has a line: the one of the token that was taken last when the byte was written. Tokens are
taken in the order of their lines, so the lines of a code never go back, and a routine that is finished before
the code around it goes on has its own. `Scopes.AscendTo` is what the compilation maintains.

All bytes of an instruction are written at once, so they are on the same line. That is why a call that has
gone on to the end of an instruction still knows the line of it: it is the line of the byte before.
-/

namespace Mudscript

open List

variable {is : List Instruction} {offset : Nat}

/-! ### What functions have under way -/

namespace Scope

/-- What a function has under way: its draft, and the loops that are open. -/
def desk (s : Scope) : Draft × List Loop := (s.draft, s.loops)

theorem desk_addCapture (s : Scope) (c : Capture) : (s.addCapture c).2.desk = s.desk := by
  rw [addCapture]
  split
  · rfl
  · split <;> rfl

theorem desk_captureFrom (s : Scope) (x : String) (outer : List Scope) : (s.captureFrom x outer).2.1.desk = s.desk ∧
      (s.captureFrom x outer).2.2.map desk = outer.map desk := by
  induction outer generalizing s with
  | nil => exact ⟨rfl, rfl⟩
  | cons e outer ih =>
    rw [captureFrom]
    match e.slot? x with
    | .error fault => exact ⟨rfl, rfl⟩
    | .ok (some slot) => exact ⟨desk_addCapture s _, rfl⟩
    | .ok none =>
      have houter := ih e
      dsimp only
      match hfound : e.captureFrom x outer with
      | (.error fault, e', outer') =>
        rw [hfound] at houter
        exact ⟨rfl, congrArg₂ List.cons houter.1 houter.2⟩
      | (.ok none, e', outer') =>
        rw [hfound] at houter
        exact ⟨rfl, congrArg₂ List.cons houter.1 houter.2⟩
      | (.ok (some above), e', outer') =>
        rw [hfound] at houter
        exact ⟨desk_addCapture s _, congrArg₂ List.cons houter.1 houter.2⟩

theorem desk_define (s : Scope) : s.define.desk = s.desk := by
  rw [define]
  split
  · rfl
  · split <;> rfl

theorem desk_declare {s s' : Scope} {x : String} (h : s.declare x = .ok s') : s'.desk = s.desk := by
  rw [declare] at h
  split at h
  · cases h
  · split at h
    · cases h
    · cases h
      rfl

end Scope

/-! ### Lines that never go back -/

/-- The lines never go back, in a routine and in the routines written in it. -/
def Routine.Ascends (r : Routine) : Prop := ∀ q, r.Within q → q.code.lines.toList.Pairwise (· ≤ ·)

structure Draft.AscendsTo (line : Nat) (d : Draft) : Prop where
  sorted : d.lines.toList.Pairwise (· ≤ ·)
  le : ∀ l ∈ d.lines.toList, l ≤ line
  pool : ∀ (index : Nat) q, d.constants[index]? = some (.routine q) → q.Ascends

namespace Draft.AscendsTo

variable {d : Draft} {line line' : Nat}

theorem empty (line : Nat) : ({} : Draft).AscendsTo line := ⟨.nil, nofun, nofun⟩

theorem mono (h : d.AscendsTo line) (hle : line ≤ line') : d.AscendsTo line' :=
  { h with le := fun l hl => Nat.le_trans (h.le l hl) hle }

theorem emit (h : d.AscendsTo line) (i : Instruction) : (d.emit i line).AscendsTo line where
  sorted := by
    rw [emit_lines, pairwise_append]
    refine ⟨h.sorted, pairwise_replicate.mpr (.inr (Nat.le_refl line)), fun l hl l' hl' => ?_⟩
    rw [eq_of_mem_replicate hl']
    exact h.le l hl
  le l hl := by
    rw [emit_lines, mem_append] at hl
    exact hl.elim (h.le l) fun hl => Nat.le_of_eq (eq_of_mem_replicate hl)
  pool index q hq := h.pool index q (emit_constants d i line ▸ hq)

theorem addConstant (h : d.AscendsTo line) {k : Constant} (hk : ∀ q, k = .routine q → q.Ascends) :
    (d.addConstant k).2.AscendsTo line := by
  refine ⟨d.addConstant_lines k ▸ h.sorted, d.addConstant_lines k ▸ h.le, fun index q hq => ?_⟩
  rw [Draft.addConstant] at hq
  split at hq
  · exact h.pool index q hq
  · dsimp only at hq
    split at hq
    · rw [pushConstant_constants, Array.getElem?_push] at hq
      split at hq
      · exact hk q (Option.some.inj hq)
      · exact h.pool index q hq
    · exact h.pool index q hq

theorem patchJump (h : d.AscendsTo line) (operand : Nat) : (d.patchJump operand).2.AscendsTo line := by
  rcases d.patchJump_cases operand with heq | ⟨distance, heq⟩
  · rwa [heq]
  · rw [heq]
    exact ⟨h.sorted, h.le, h.pool⟩

theorem toRoutine {s : Scope} (h : s.draft.AscendsTo line) : s.toRoutine.Ascends := by
  intro q hq
  cases hq with
  | self => exact h.sorted
  | inside hget hq => exact h.pool _ _ hget q hq

theorem emitAll {s : Scope} (h : s.draft.AscendsTo line) (is : List Instruction) :
    (s.emitAll is line).draft.AscendsTo line := by
  induction is generalizing s with
  | nil => exact h
  | cons i is ih => exact ih (s := s.emit i line) (h.emit i)

end Draft.AscendsTo

namespace Scopes

/-- The lines never go back in any function under compilation, and none is behind the given one. -/
structure AscendTo (line : Nat) (s : Scopes) : Prop where
  current : s.current.draft.AscendsTo line
  enclosing : ∀ scope ∈ s.enclosing, scope.draft.AscendsTo line

variable {s s' : Scopes} {line line' : Nat}

theorem AscendTo.mono (h : s.AscendTo line) (hle : line ≤ line') : s.AscendTo line' :=
  ⟨h.current.mono hle, fun scope hscope => (h.enclosing scope hscope).mono hle⟩

theorem AscendTo.of_desk (h : s.AscendTo line) (hcurrent : s'.current.desk = s.current.desk)
    (henclosing : s'.enclosing.map Scope.desk = s.enclosing.map Scope.desk) : s'.AscendTo line := by
  refine ⟨?_, fun scope hscope => ?_⟩
  · rw [show s'.current.draft = s.current.draft from congrArg Prod.fst hcurrent]
    exact h.current
  · obtain ⟨scope', hscope', heq⟩ := mem_map.mp (henclosing ▸ mem_map_of_mem (f := Scope.desk) hscope)
    rw [← show scope'.draft = scope.draft from congrArg Prod.fst heq]
    exact h.enclosing scope' hscope'

theorem AscendTo.enter (h : s.AscendTo line) (kind : RoutineKind) (name : String) (owner : Option String) :
    (s.enter kind name owner).AscendTo line :=
  ⟨.empty line, forall_mem_cons.mpr ⟨h.current, h.enclosing⟩⟩

theorem AscendTo.left (h : s.AscendTo line) : s.left.AscendTo line := by
  obtain ⟨current, enclosing⟩ := s
  cases enclosing with
  | nil => exact h
  | cons outer rest =>
    obtain ⟨houter, hrest⟩ := forall_mem_cons.mp h.enclosing
    exact ⟨houter, hrest⟩

end Scopes

/-! ### Lines of instructions -/

/-- The lines of bytes, so many of each line after the other. -/
def Code.spread (ls : List (Nat × Nat)) : List Nat := ls.flatMap fun l => List.replicate l.1 l.2

theorem Code.length_spread {ls : List (Nat × Nat)} (h : ls.map Prod.fst = is.map Instruction.size) :
    (spread ls).length = length is := by
  induction is generalizing ls with
  | nil =>
    rw [map_eq_nil_iff.mp h]
    rfl
  | cons i is ih =>
    obtain ⟨l, ls, rfl, hl, hls⟩ := map_eq_cons_iff.mp h
    rw [length_cons, ← ih hls, ← hl]
    simp [spread]

theorem Draft.Logs.exists_spread {d : Draft} (h : Logs {} is d) :
    ∃ ls : List (Nat × Nat), ls.map Prod.fst = is.map Instruction.size ∧ d.lines.toList = Code.spread ls := by
  induction h with
  | refl => exact ⟨[], rfl, rfl⟩
  | @emit is d i line _ _ ih =>
    obtain ⟨ls, hls, hlines⟩ := ih
    refine ⟨ls ++ [(i.size, line)], by simp [hls], ?_⟩
    rw [emit_lines, hlines]
    simp [Code.spread]
  | @constant is d k _ ih =>
    rw [addConstant_lines]
    exact ih
  | @patch is d operand _ _ ih =>
    rcases d.patchJump_cases operand with heq | ⟨distance, heq⟩
    · rwa [heq]
    · rw [heq]
      exact ih

theorem Code.Boundary.split {code : Code} {js : List Instruction}
    (hbytes : code.bytes.toList = js.flatMap Instruction.encode) (hlegible : ∀ j ∈ js, j.Legible code.constants)
    (h : code.Boundary offset) : ∃ front back, js = front ++ back ∧ offset = Code.length front := by
  induction h with
  | start => exact ⟨[], js, rfl, rfl⟩
  | @next offset _ hlt ih =>
    obtain ⟨front, back, rfl, rfl⟩ := ih
    cases back with
    | nil =>
      have hsize : code.size = Code.length front := by
        rw [Code.size, ← Array.length_toList, hbytes, append_nil, Code.length_flatMap_encode]
      omega
    | cons i back =>
      rw [flatMap_append, flatMap_cons, ← append_assoc] at hbytes
      obtain ⟨j, hj, hsize⟩ := exists_instructionAt? hbytes (hlegible i (by simp))
      rw [Code.length_flatMap_encode] at hj
      refine ⟨front ++ [i], back, by simp, ?_⟩
      rw [Code.nextOffset, hj]
      simp [hsize]

theorem Draft.Logs.lineAt_eq {d : Draft} (h : Logs {} is d) {k : Nat} {i : Instruction}
    (hat : d.toCode.At offset i) (hk : k < i.size) : d.toCode.lineAt (offset + k) = d.toCode.lineAt offset := by
  obtain ⟨js, halike, hbytes, hlegible, _⟩ := h.exists_alike
  obtain ⟨ls, hls, hlines⟩ := h.exists_spread
  have hsizes : ls.map Prod.fst = js.map Instruction.size := by
    rw [hls]
    clear hbytes hlegible hls h
    induction halike with
    | nil => rfl
    | cons hi _ ih => rw [map_cons, map_cons, ih, hi.size_eq]
  obtain ⟨front, back, rfl, rfl⟩ := hat.boundary.split hbytes hlegible
  cases back with
  | nil =>
    have hlt := hat.lt_size
    rw [Code.size, ← Array.length_toList, show d.toCode.bytes = d.bytes from rfl, hbytes, append_nil,
      Code.length_flatMap_encode] at hlt
    omega
  | cons j back =>
    rw [flatMap_append, flatMap_cons, ← append_assoc] at hbytes
    obtain ⟨i', hi', hsize⟩ := @Code.exists_instructionAt? d.toCode _ _ _ hbytes (hlegible j (by simp))
    rw [Code.length_flatMap_encode, hat.instruction] at hi'
    cases hi'
    obtain ⟨ls1, ls2, rfl, hfront, hback⟩ := map_eq_append_iff.mp (hsizes.trans map_append)
    obtain ⟨⟨size, line⟩, ls3, rfl, hj, _⟩ := map_eq_cons_iff.mp hback
    have hlength := Code.length_spread hfront
    have hline : ∀ n < i.size, d.toCode.lineAt (Code.length front + n) = line := by
      intro n hn
      have hlt : n < size := by
        rw [show size = j.size from hj]
        omega
      rw [Code.lineAt, ← Array.getElem?_toList, show d.toCode.lines = d.lines from rfl, hlines,
        show Code.spread (ls1 ++ (size, line) :: ls3) = Code.spread ls1 ++ (List.replicate size line ++ Code.spread ls3)
          by simp [Code.spread], ← hlength, List.getElem?_append_right (by omega), Nat.add_sub_cancel_left,
        List.getElem?_append_left (by simpa using hlt), List.getElem?_replicate_of_lt hlt]
      rfl
    have hzero := hline 0 i.size_pos
    rw [Nat.add_zero] at hzero
    rw [hline k hk, hzero]

end Mudscript
