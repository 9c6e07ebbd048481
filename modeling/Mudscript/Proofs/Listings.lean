import Mudscript.Proofs.Turns
import Mudscript.Routine.Listing

/-!
# Listings and what machines fetch

A listing goes through the code of a routine from front to back, an instruction at a time, and reads operands
in its own way. What it prints is what the machine reads there, and it goes on where the machine does
(`Code.listed_eq`). What it visits is where the compilation has written an instruction, it comes to an end
exactly where the code does, and on the way it reads nothing that is not there. A machine goes through code in
leaps, with jumps, calls and returns. All the same, whatever it fetches is an instruction of the listing, behind
which it continues where the listing does, and where it goes when it jumps is the place that the listing names.
-/

namespace Mudscript

open Machine Exec
open Text (padStart padEnd)

namespace Code

variable {code : Code} {offset : Nat}

/-! ### Two ways to read an instruction -/

def capturesText : Nat → List Capture → String
  | _, [] => ""
  | offset, c :: captures =>
    "\n" ++ offsetText offset ++ "    |   " ++ (if c.fromLocal then "local " else "upvalue ") ++ toString c.index ++
      capturesText (offset + 2) captures

/-- The text of an instruction that a machine has read at an offset. -/
def instructionText (code : Code) (offset : Nat) (i : Instruction) : String :=
  let column := fun (n : Nat) => padEnd 16 ' ' i.opcode.mnemonic ++ " " ++ padStart 4 ' ' (toString n)
  let constant := fun (n : Nat) => column n ++ " (" ++ code.constantText n ++ ")"
  let jump := fun (n target : Nat) => column n ++ " -> " ++ offsetText target
  match i with
  | .getLocal n | .setLocal n | .getUpvalue n | .setUpvalue n | .call n => column n
  | .constant n | .getGlobal n | .defineGlobal n | .setGlobal n | .getProperty n | .setProperty n
  | .object n | .field n | .method n => constant n
  | .jump n | .jumpIfFalse n => jump n (offset + i.size + n)
  | .loop n => jump n (offset + i.size - n)
  | .invoke n k | .superInvoke n k => constant n ++ " args=" ++ toString k
  | .closure n captures => constant n ++ capturesText (offset + 3) captures
  | _ => i.opcode.mnemonic

private theorem captureLines_eq (code : Code) (count offset : Nat) : code.captureLines count offset
      = (capturesText offset (Fetch.captures count code offset).1, (Fetch.captures count code offset).2) := by
  induction count generalizing offset with
  | zero => rfl
  | succ count ih =>
    have hread : Fetch.captures (count + 1) code offset
        = (⟨code.byteAt offset = 1, (code.byteAt (offset + 1)).toNat⟩ :: (Fetch.captures count code (offset + 2)).1,
          (Fetch.captures count code (offset + 2)).2) := rfl
    rw [hread, captureLines, ih]
    simp only [capturesText, decide_eq_true_eq]

private theorem operationText_eq (code : Code) (op : Opcode) (offset : Nat) : code.operationText op (offset + 1)
      = (code.instructionText offset (Fetch.operands op code (offset + 1)).1,
        (Fetch.operands op code (offset + 1)).2) := by
  cases op with
  | closure =>
    simp only [operationText, captureLines_eq]
    rfl
  | _ => rfl

/-- A listing and a machine read the same instruction and go on at the same offset. -/
theorem listed_eq {i : Instruction} {next : Nat} (h : code.fetch? offset = some (i, next)) : code.listed offset
      = (offsetText offset ++ " " ++ code.lineColumn offset ++ " " ++ code.instructionText offset i, next) := by
  obtain ⟨op, hop, hread⟩ := Option.map_eq_some_iff.mp h
  simp only [listed, hop, operationText_eq, hread]

theorem listed_snd (code : Code) (offset : Nat) : (code.listed offset).2 = code.nextOffset offset := by
  have hread := code.fetch?_eq offset
  rw [nextOffset]
  cases hi : code.instructionAt? offset with
  | some i =>
    rw [hi] at hread
    rw [listed_eq hread]
  | none =>
    have hop : Opcode.ofByte? (code.byteAt offset) = none := by
      rwa [instructionAt?, fetch?, Option.map_map, Option.map_eq_none_iff] at hi
    simp only [listed, hop]

/-! ### Going through code -/

/-- The offsets that a listing visits from an offset on, and the one at which it stops. -/
def sweep (code : Code) (offset : Nat) : List Nat :=
  if offset < code.size then offset :: sweep code (code.listed offset).2 else [offset]
termination_by code.size - offset
decreasing_by
  have := code.lt_listed offset
  omega

theorem sweep_of_lt (h : offset < code.size) : code.sweep offset = offset :: code.sweep (code.listed offset).2 := by
  rw [sweep, if_pos h]

private theorem sweep_size (code : Code) : code.sweep code.size = [code.size] := by
  rw [sweep, if_neg (Nat.lt_irrefl _)]

theorem sweep_ne_nil (code : Code) (offset : Nat) : code.sweep offset ≠ [] := by
  rw [sweep]
  split <;> exact List.cons_ne_nil _ _

private theorem listFrom_eq (code : Code) (offset : Nat) (out : String) : code.listFrom offset out
      = out ++ String.join ((code.sweep offset).dropLast.map fun o => code.lineText o ++ "\n") := by
  fun_induction listFrom code offset out with
  | case1 offset out hlt ih =>
    rw [ih, sweep_of_lt hlt, List.dropLast_cons_of_ne_nil (sweep_ne_nil _ _), List.map_cons, String.join_cons]
    simp only [String.append_assoc]
  | case2 offset out hle =>
    rw [sweep, if_neg hle]
    simp

private theorem sweep_eq {front back : List Instruction}
    (hbytes : code.bytes.toList = (front ++ back).flatMap Instruction.encode)
    (hlegible : ∀ i ∈ front ++ back, i.Legible code.constants) :
    code.sweep (length front) = starts (length front) back ++ [code.size] := by
  have hsize : code.size = length (front ++ back) := by
    rw [size, ← Array.length_toList, hbytes, length_flatMap_encode]
  induction back generalizing front with
  | nil =>
    rw [List.append_nil] at hsize
    rw [← hsize]
    exact sweep_size code
  | cons i back ih =>
    have hsplit : code.bytes.toList = front.flatMap Instruction.encode ++ i.encode
        ++ back.flatMap Instruction.encode := by
      rw [hbytes, List.flatMap_append, List.flatMap_cons, List.append_assoc]
    obtain ⟨j, hj, hjsize⟩ := exists_instructionAt? hsplit (hlegible i (by simp))
    rw [length_flatMap_encode] at hj
    have hnext : code.nextOffset (length front) = length (front ++ [i]) := by
      rw [nextOffset, hj]
      simp [hjsize]
    have hlt : length front < code.size := by
      have hpos := i.size_pos
      rw [hsize, length_append, length_cons]
      omega
    have hrest := @ih (front ++ [i]) (by simpa using hbytes) (by simpa using hlegible) (by simpa using hsize)
    rw [sweep_of_lt hlt, listed_snd, hnext, hrest, starts, List.cons_append]
    simp

private theorem dropLast_sweep_of_lt (h : offset < code.size) :
    (code.sweep offset).dropLast = offset :: (code.sweep (code.nextOffset offset)).dropLast := by
  rw [sweep_of_lt h, listed_snd, List.dropLast_cons_of_ne_nil (sweep_ne_nil _ _)]

private theorem mem_dropLast_sweep_iff :
    offset ∈ (code.sweep 0).dropLast ↔ code.Boundary offset ∧ offset < code.size := by
  have hboundary : ∀ start, code.Boundary start → ∀ o ∈ (code.sweep start).dropLast,
      code.Boundary o ∧ o < code.size := by
    intro start
    fun_induction sweep code start with
    | case1 start hlt ih =>
      intro hstart o ho
      rw [listed_snd] at ih ho
      rw [List.dropLast_cons_of_ne_nil (sweep_ne_nil _ _)] at ho
      rcases List.mem_cons.mp ho with rfl | ho
      · exact ⟨hstart, hlt⟩
      · exact ih (.next hstart hlt) o ho
    | case2 start hle => exact fun _ o ho => nomatch ho
  have hnext : ∀ start, ∀ o ∈ (code.sweep start).dropLast, code.nextOffset o < code.size →
      code.nextOffset o ∈ (code.sweep start).dropLast := by
    intro start
    fun_induction sweep code start with
    | case1 start hlt ih =>
      intro o ho hin
      rw [listed_snd] at ih ho ⊢
      rw [List.dropLast_cons_of_ne_nil (sweep_ne_nil _ _)] at ho ⊢
      rcases List.mem_cons.mp ho with rfl | ho
      · rw [dropLast_sweep_of_lt hin]
        exact List.mem_cons_of_mem _ List.mem_cons_self
      · exact List.mem_cons_of_mem _ (ih o ho hin)
    | case2 start hle => exact fun o ho => nomatch ho
  constructor
  · exact hboundary 0 .start offset
  · rintro ⟨h, hlt⟩
    induction h with
    | start =>
      rw [dropLast_sweep_of_lt hlt]
      exact List.mem_cons_self
    | next _ hbefore ih => exact hnext 0 _ (ih hbefore) hlt

end Code

/-- Whatever a log is of, the listing visits what is in the log. -/
theorem Draft.Logs.sweep {d : Draft} {is : List Instruction} (h : Logs {} is d) :
    d.toCode.sweep 0 = Code.starts 0 is ++ [d.size] := by
  obtain ⟨js, halike, hbytes, hlegible, _⟩ := h.exists_alike
  have hsweep := @Code.sweep_eq d.toCode [] js hbytes hlegible
  rw [Code.length_nil, Code.starts_alike halike] at hsweep
  exact hsweep

/-! ### What machines fetch -/

variable {past : Moment} {L : Layouts} {a : Activity} {m m' m1 : Machine} {f : Frame} {rest : List Frame}
  {i : Instruction} {distance : Nat}

def Machine.Jumps (m : Machine) (i : Instruction) (distance : Nat) : Prop :=
  i = .jump distance ∨ i = .loop distance ∨ i = .jumpIfFalse distance ∧ (m.stack.back?.getD .nil).isTruthy = false

theorem Machine.Performs.jumps (h : m.Performs f i (.ok () m')) (hcalls : m.calls = f :: rest)
    (hjumps : m.Jumps i distance) :
    ∃ target, m'.calls = { f with position := target } :: rest ∧ f.code.instructionText f.position i
      = padEnd 16 ' ' i.opcode.mnemonic ++ " " ++ padStart 4 ' ' (toString distance) ++ " -> "
        ++ Code.offsetText target := by
  have hgone : ∀ (events : Array Event) next target,
      ((({ m with events } : Machine).goTo next).goTo target).calls = { f with position := target } :: rest :=
    fun events next target => calls_goTo (calls_goTo (m := { m with events }) hcalls next) target
  rcases hjumps with rfl | rfl | ⟨rfl, hfalse⟩
  · apply h.gives_alone
    exact fun events => ⟨_, hgone events _ _, rfl⟩
  · apply h.gives_alone
    exact fun events => ⟨_, hgone events _ _, rfl⟩
  · apply h.gives_alone
    intro events
    unfold execute
    rw [gives_bind, gives_peek, gives_ite]
    refine ⟨fun htrue => ?_, fun _ => ⟨_, hgone events _ _, rfl⟩⟩
    rw [Array.back?_eq_getElem?] at hfalse
    exact absurd (hfalse.symm.trans htrue) nofun

theorem Machine.Performs.falls (h : m.Performs f i (.ok () m')) (hcalls : m.calls = f :: rest)
    (hret : i ≠ .ret) (hjumps : ∀ distance, ¬ m.Jumps i distance) :
    ∃ entered, m'.calls = entered ++ { f with position := f.position + i.size } :: rest := by
  by_cases hbranch : ∃ distance, i = .jumpIfFalse distance
  · obtain ⟨distance, rfl⟩ := hbranch
    apply h.gives_alone
    intro events
    unfold execute
    rw [gives_bind, gives_peek, gives_ite]
    refine ⟨fun _ => ⟨[], calls_goTo (m := { m with events }) hcalls _⟩, fun hfalse => ?_⟩
    refine absurd (.inr (.inr ⟨rfl, ?_⟩)) (hjumps distance)
    rw [Array.back?_eq_getElem?]
    exact Bool.eq_false_iff.mpr hfalse
  · obtain ⟨entered, target, hcalls', hcontinues, _⟩ := h.advances hcalls hret
    refine ⟨entered, ?_⟩
    rw [hcalls']
    rcases hcontinues with hnear | hfar
    · rw [Instruction.near?_eq hnear]
    · cases i with
      | jump distance => exact absurd (.inl rfl) (hjumps distance)
      | loop distance => exact absurd (.inr (.inl rfl)) (hjumps distance)
      | jumpIfFalse distance => exact absurd ⟨distance, rfl⟩ hbranch
      | _ => cases hfar

namespace Session

end Session

end Mudscript
