import Mudscript.Proofs.Layout

/-!
# Reading code back

Code that was written as a list of instructions is read back as that list. The one thing to take care
of is that operands fit into the bytes they have.
-/

namespace Mudscript

variable {code' : Code} {i : Instruction} {back front : List Instruction} {n : Nat}

/-- The operands of an instruction fit into their bytes, and a closure has the captures that its
routine asks for. -/
def Instruction.Encodable (code : Code) : Instruction → Prop
  | .getLocal n | .setLocal n | .getUpvalue n | .setUpvalue n | .call n => n < 256
  | .constant n | .getGlobal n | .defineGlobal n | .setGlobal n | .getProperty n | .setProperty n
  | .jump n | .jumpIfFalse n | .loop n | .object n | .field n | .method n => n < 65536
  | .invoke n k | .superInvoke n k => n < 65536 ∧ k < 256
  | .closure n captures => n < 65536 ∧ captures.length = code.captureCount n ∧
      ∀ c ∈ captures, c.index < 256
  | _ => True

theorem Instruction.near?_eq {next target : Nat} (h : i.near? next = some target) : target = next := by
  cases i with
  | jump _ | loop _ | ret => cases h
  | _ => exact (Option.some.inj h).symm

theorem Instruction.Encodable.of_constants_eq {code : Code}
    (h : i.Encodable code) (heq : code'.constants = code.constants) : i.Encodable code' := by
  cases i with
  | closure index captures =>
    refine ⟨h.1, ?_, h.2.2⟩
    rw [h.2.1, Code.captureCount, Code.captureCount, Code.routineAt?, Code.routineAt?, heq]
  | _ => exact h

/-- What is read depends on the bytes, and on how many captures the routines in the pool have. -/
theorem Fetch.operands_congr {code : Code} (hbyte : code'.byteAt = code.byteAt)
    (hcount : code'.captureCount = code.captureCount) (op : Opcode) (offset : Nat) :
    operands op code' offset = operands op code offset := by
  have hcaptures : ∀ count offset, captures count code' offset = captures count code offset := by
    intro count
    induction count with
    | zero => exact fun _ => rfl
    | succ count ih =>
      intro offset
      show (_ :: (captures count code' (offset + 2)).1, (captures count code' (offset + 2)).2) = _
      rw [ih, hbyte]
      rfl
  cases op <;> simp [operands, word, byte, hbyte, hcaptures, hcount, read, readThe, MonadReaderOf.read, ReaderT.read,
    bind, ReaderT.bind, StateT.bind, pure, ReaderT.pure, StateT.pure]

namespace Code

variable {code : Code} {before rest : List UInt8}

theorem byteAt_eq (hbytes : code.bytes.toList = before ++ rest) (k : Nat) :
    code.byteAt (before.length + k) = rest[k]?.getD 0 := by
  rw [byteAt, ← Array.getElem?_toList, hbytes, List.getElem?_append_right (Nat.le_add_right _ _),
    Nat.add_sub_cancel_left]

theorem toNat_ofNat_of_lt (h : n < 256) : (UInt8.ofNat n).toNat = n := by
  rw [UInt8.toNat_ofNat', Nat.mod_eq_of_lt h]

theorem word_eq (h : n < 65536) : 256 * (UInt8.ofNat (n / 256)).toNat + (UInt8.ofNat n).toNat = n := by
  rw [UInt8.toNat_ofNat', UInt8.toNat_ofNat']
  omega

theorem captures_eq {captures : List Capture}
    (hbytes : code.bytes.toList = before ++ captures.flatMap Capture.bytes ++ rest)
    (hfits : ∀ c ∈ captures, c.index < 256) : (Fetch.captures captures.length code before.length).1 = captures := by
  induction captures generalizing before with
  | nil => rfl
  | cons c captures ih =>
    rw [List.forall_mem_cons] at hfits
    have hsplit : code.bytes.toList = before ++ (c.bytes ++ (captures.flatMap Capture.bytes ++ rest)) := by
      rw [hbytes, List.flatMap_cons]
      simp only [List.append_assoc]
    have hfirst := byteAt_eq hsplit 0
    have hsecond := byteAt_eq hsplit 1
    have hrest : (Fetch.captures captures.length code (before.length + 2)).1 = captures := by
      have hlength : (before ++ c.bytes).length = before.length + 2 := by
        rw [List.length_append]
        rfl
      rw [← hlength]
      refine ih ?_ hfits.2
      rw [hsplit]
      simp only [List.append_assoc]
    rw [Nat.add_zero] at hfirst
    show (⟨decide (code.byteAt before.length = 1), (code.byteAt (before.length + 1)).toNat⟩ : Capture)
      :: (Fetch.captures captures.length code (before.length + 2)).1 = _
    rw [hfirst, hsecond, hrest]
    show (⟨decide ((if c.fromLocal = true then (1 : UInt8) else 0) = 1), (UInt8.ofNat c.index).toNat⟩
      : Capture) :: captures = _
    rw [toNat_ofNat_of_lt hfits.1]
    cases c with
    | mk fromLocal index => cases fromLocal <;> rfl

theorem instructionAt?_eq (hbytes : code.bytes.toList = before ++ i.encode ++ rest)
    (hfits : i.Encodable code) : code.instructionAt? before.length = some i := by
  have hsplit : code.bytes.toList = before ++ (i.opcode.toByte :: (i.operands ++ rest)) := by
    rw [hbytes, List.append_assoc]
    rfl
  have hopcode := byteAt_eq hsplit 0
  have hbyte : ∀ k, code.byteAt (before.length + 1 + k) = (i.operands ++ rest)[k]?.getD 0 := by
    intro k
    rw [Nat.add_assoc, Nat.add_comm 1 k]
    exact byteAt_eq hsplit (k + 1)
  rw [Nat.add_zero] at hopcode
  rw [instructionAt?, fetch?, hopcode]
  show ((Opcode.ofByte? i.opcode.toByte).map _).map _ = _
  rw [Opcode.ofByte?_toByte, Option.map_some, Option.map_some]
  refine congrArg some ?_
  have hbyte0 := hbyte 0
  rw [Nat.add_zero] at hbyte0
  have hword : ∀ n more, i.operands = wordBytes n ++ more → n < 65536 →
      code.wordAt (before.length + 1) = n := by
    intro n more hoperands hlt
    rw [wordAt, hbyte0, hbyte 1, hoperands]
    exact word_eq hlt
  cases i with
  | getLocal n | setLocal n | getUpvalue n | setUpvalue n | call n =>
    exact congrArg _ ((congrArg UInt8.toNat hbyte0).trans (toNat_ofNat_of_lt hfits))
  | constant n | getGlobal n | defineGlobal n | setGlobal n | getProperty n | setProperty n | jump n
  | jumpIfFalse n | loop n | object n | field n | method n =>
    exact congrArg _ (hword n [] rfl hfits)
  | invoke n k | superInvoke n k =>
    exact congrArg₂ _ (hword n _ rfl hfits.1)
      ((congrArg UInt8.toNat (hbyte 2)).trans (toNat_ofNat_of_lt hfits.2))
  | closure n captures =>
    obtain ⟨hlt, hcount, hindex⟩ := hfits
    have hn := hword n _ rfl hlt
    have hcaptures : (Fetch.captures captures.length code (before.length + 1 + 2)).1 = captures := by
      have hlength : (before ++ Opcode.closure.toByte :: wordBytes n).length = before.length + 1 + 2 := by
        simp [wordBytes]
      have hbytes' : code.bytes.toList = (before ++ Opcode.closure.toByte :: wordBytes n)
          ++ captures.flatMap Capture.bytes ++ rest := by
        rw [hsplit]
        simp [Instruction.operands, Instruction.opcode]
      rw [← hlength]
      exact captures_eq hbytes' hindex
    show Instruction.closure (code.wordAt (before.length + 1))
      (Fetch.captures (code.captureCount (code.wordAt (before.length + 1))) code (before.length + 1 + 2)).1 = _
    rw [hn, ← hcount, hcaptures]
  | _ => rfl

theorem constants_of_routineAt? {index : Nat} {q : Routine} (h : code.routineAt? index = some q) :
    code.constants[index]? = some (.routine q) := by
  unfold routineAt? at h
  split at h
  · cases h
    assumption
  · cases h

/-! ### Listings -/

def length (is : List Instruction) : Nat := (is.map Instruction.size).sum

@[simp] theorem length_nil : length [] = 0 := rfl

@[simp] theorem length_cons (i : Instruction) (is : List Instruction) : length (i :: is) = i.size + length is := rfl

@[simp] theorem length_append (is js : List Instruction) : length (is ++ js) = length is + length js := by
  rw [length, List.map_append, List.sum_append]
  rfl

theorem length_flatMap_encode (is : List Instruction) : (is.flatMap Instruction.encode).length = length is := by
  induction is with
  | nil => rfl
  | cons i is ih =>
    rw [List.flatMap_cons, List.length_append, ih, Instruction.length_encode, length_cons]

structure Lists (code : Code) (is : List Instruction) : Prop where
  bytes_eq : code.bytes.toList = is.flatMap Instruction.encode
  encodable : ∀ i ∈ is, i.Encodable code

variable {is : List Instruction}

variable (h : code.Lists is)

include h

theorem Lists.size_eq : code.size = length is := by
  rw [size, ← Array.length_toList, h.bytes_eq, length_flatMap_encode]

theorem Lists.instructionAt? (hsplit : is = front ++ i :: back) : code.instructionAt? (length front) = some i := by
  have hbytes : code.bytes.toList = front.flatMap Instruction.encode ++ i.encode
      ++ back.flatMap Instruction.encode := by
    rw [h.bytes_eq, hsplit, List.flatMap_append, List.flatMap_cons, List.append_assoc]
  rw [← length_flatMap_encode]
  refine instructionAt?_eq hbytes (h.encodable i ?_)
  rw [hsplit]
  exact List.mem_append_right _ List.mem_cons_self

theorem Lists.nextOffset
    (hsplit : is = front ++ i :: back) : code.nextOffset (length front) = length (front ++ [i]) := by
  rw [Code.nextOffset, h.instructionAt? hsplit]
  simp

theorem Lists.lt_size (hsplit : is = front ++ i :: back) : length front < code.size := by
  have hpos := i.size_pos
  rw [h.size_eq, hsplit]
  simp only [length_append, length_cons]
  omega

theorem Lists.exists_eq_cons (hsplit : is = front ++ back) (hlt : length front < code.size) :
    ∃ i rest, back = i :: rest := by
  refine List.exists_cons_of_ne_nil fun hnil => ?_
  rw [hnil, List.append_nil] at hsplit
  rw [h.size_eq, hsplit] at hlt
  exact Nat.lt_irrefl _ hlt

theorem Lists.boundary_iff (offset : Nat) :
    code.Boundary offset ↔ ∃ front back, is = front ++ back ∧ offset = length front := by
  constructor
  · intro hboundary
    induction hboundary with
    | start => exact ⟨[], is, rfl, rfl⟩
    | @next offset _ hlt ih =>
      obtain ⟨front, back, hsplit, rfl⟩ := ih
      obtain ⟨i, back, rfl⟩ := h.exists_eq_cons hsplit hlt
      refine ⟨front ++ [i], back, ?_, h.nextOffset hsplit⟩
      rw [hsplit, List.append_assoc]
      rfl
  · rintro ⟨front, back, hsplit, rfl⟩
    induction front using List.reverseRecOn generalizing back with
    | nil => exact .start
    | append_singleton front i ih =>
      rw [List.append_assoc] at hsplit
      rw [← h.nextOffset hsplit]
      exact .next (ih _ hsplit) (h.lt_size hsplit)

theorem Lists.at_iff (offset : Nat) (i : Instruction) :
    code.At offset i ↔ ∃ front back, is = front ++ i :: back ∧ offset = length front := by
  constructor
  · rintro ⟨hboundary, hlt, hinstruction⟩
    obtain ⟨front, back, hsplit, rfl⟩ := (h.boundary_iff offset).mp hboundary
    obtain ⟨j, back, rfl⟩ := h.exists_eq_cons hsplit hlt
    rw [h.instructionAt? hsplit] at hinstruction
    cases hinstruction
    exact ⟨front, back, hsplit, rfl⟩
  · rintro ⟨front, back, hsplit, rfl⟩
    exact ⟨(h.boundary_iff _).mpr ⟨front, _, hsplit, rfl⟩, h.lt_size hsplit, h.instructionAt? hsplit⟩

theorem Lists.exists_at {offset : Nat} (hboundary : code.Boundary offset)
    (hlt : offset < code.size) : ∃ i, code.At offset i := by
  obtain ⟨front, back, hsplit, rfl⟩ := (h.boundary_iff offset).mp hboundary
  obtain ⟨i, back, rfl⟩ := h.exists_eq_cons hsplit hlt
  exact ⟨i, hboundary, hlt, h.instructionAt? hsplit⟩

end Code

end Mudscript
