import Mathlib
import Mudscript.Draft

/-!
# Facts about drafts

What writing an instruction and adding a constant do to the bytes and the pool of a draft. Later modules use
these statements and never look into the functions themselves. The pool stays consistent whatever is added to it
(`Draft.pool_of_additions`).
-/

namespace Mudscript

variable {c k : Constant} {d d' : Draft} {i index : Nat}

private theorem Constant.eq_of_key? (hkey : c.key? = k.key?) (hsome : c.key?.isSome) : c = k := by
  cases c <;> cases k <;> simp_all [Constant.key?]

namespace Draft

/-! ### Bytes -/

@[simp] theorem append_bytes (d : Draft) (bytes : List UInt8) (line : Nat) :
    (d.append bytes line).bytes.toList = d.bytes.toList ++ bytes := by
  induction bytes generalizing d with
  | nil => simp [append]
  | cons b rest ih =>
    have hstep : d.append (b :: rest) line = (d.pushByte b line).append rest line := rfl
    rw [hstep, ih]
    simp [pushByte]

@[simp] theorem append_constants (d : Draft) (bytes : List UInt8) (line : Nat) :
    (d.append bytes line).constants = d.constants := by
  induction bytes generalizing d with
  | nil => rfl
  | cons b rest ih => exact ih (d.pushByte b line)

@[simp] theorem append_entries (d : Draft) (bytes : List UInt8) (line : Nat) :
    (d.append bytes line).entries = d.entries := by
  induction bytes generalizing d with
  | nil => rfl
  | cons b rest ih => exact ih (d.pushByte b line)

@[simp] theorem emit_bytes (d : Draft) (i : Instruction) (line : Nat) :
    (d.emit i line).bytes.toList = d.bytes.toList ++ i.encode := append_bytes d i.encode line

@[simp] theorem emit_constants (d : Draft) (i : Instruction) (line : Nat) :
    (d.emit i line).constants = d.constants := append_constants d i.encode line

@[simp] theorem emit_entries (d : Draft) (i : Instruction) (line : Nat) :
    (d.emit i line).entries = d.entries := append_entries d i.encode line

theorem size_eq_length (d : Draft) : d.size = d.bytes.toList.length := by
  rw [Array.length_toList]
  rfl

@[simp] theorem emit_size (d : Draft) (i : Instruction) (line : Nat) : (d.emit i line).size = d.size + i.size := by
  rw [size_eq_length, emit_bytes, List.length_append, Instruction.length_encode, size_eq_length]

/-! ### The pool -/

/-- The index of the pool holds the entry of every number and text in the pool and of nothing else, and there
are not too many entries for an operand of two bytes. -/
structure Pooled (d : Draft) : Prop where
  indexed : ∀ key index, d.entries[key]? = some index ↔
    ∃ c : Constant, d.constants[index]? = some c ∧ c.key? = some key
  size_le : d.constants.size ≤ maxWord + 1

theorem pooled_empty : Pooled {} := by
  refine ⟨fun key index => ?_, Nat.zero_le _⟩
  rw [Std.HashMap.getElem?_empty]
  exact iff_of_false nofun fun ⟨_, h, _⟩ => by cases h

theorem Pooled.of_eq (h : d.Pooled) (hconstants : d'.constants = d.constants)
    (hentries : d'.entries = d.entries) : d'.Pooled := by
  refine ⟨?_, ?_⟩
  · rw [hconstants, hentries]
    exact h.indexed
  · rw [hconstants]
    exact h.size_le

theorem Pooled.unique (h : d.Pooled) {j : Nat} (hkey : c.key?.isSome)
    (hi : d.constants[i]? = some c) (hj : d.constants[j]? = some c) : i = j := by
  obtain ⟨key, hkey⟩ := Option.isSome_iff_exists.mp hkey
  exact Option.some.inj (((h.indexed key i).mpr ⟨c, hi, hkey⟩).symm.trans ((h.indexed key j).mpr ⟨c, hj, hkey⟩))

theorem Pooled.pooled?_eq_some (h : d.Pooled) :
    d.pooled? c = some index ↔ c.key?.isSome ∧ d.constants[index]? = some c := by
  rw [pooled?, Option.bind_eq_some_iff]
  constructor
  · rintro ⟨key, hkey, hentry⟩
    obtain ⟨k, hget, hkey'⟩ := (h.indexed key index).mp hentry
    rw [hget, Constant.eq_of_key? (hkey'.trans hkey.symm) (hkey' ▸ rfl)]
    exact ⟨hkey ▸ rfl, rfl⟩
  · rintro ⟨hkey, hget⟩
    obtain ⟨key, hkey⟩ := Option.isSome_iff_exists.mp hkey
    exact ⟨key, hkey, (h.indexed key index).mpr ⟨c, hget, hkey⟩⟩

theorem Pooled.pooled?_eq_none (h : d.Pooled) : d.pooled? c = none ↔ ¬ (c.key?.isSome ∧ c ∈ d.constants) := by
  simp only [Option.eq_none_iff_forall_ne_some, Ne, h.pooled?_eq_some, Array.mem_iff_getElem?, not_and, not_exists]
  exact ⟨fun hne hkey index => hne index hkey, fun hne index hkey => hne hkey index⟩

theorem pushConstant_none (hkey : k.key? = none) : d.pushConstant k = { d with constants := d.constants.push k } := by
  simp [pushConstant, hkey]

theorem pushConstant_some {key} (hkey : k.key? = some key) : d.pushConstant k = { d with
      constants := d.constants.push k
      entries := d.entries.insert key d.constants.size } := by
  simp [pushConstant, hkey]

theorem pushConstant_bytes (d : Draft) (k : Constant) : (d.pushConstant k).bytes = d.bytes := by
  cases hkey : k.key? with
  | none => rw [pushConstant_none hkey]
  | some key => rw [pushConstant_some hkey]

theorem pushConstant_constants (d : Draft) (k : Constant) : (d.pushConstant k).constants = d.constants.push k := by
  cases hkey : k.key? with
  | none => rw [pushConstant_none hkey]
  | some key => rw [pushConstant_some hkey]

theorem getElem?_push_of_some {α : Type} {xs : Array α} {a b : α} (h : xs[i]? = some a) : (xs.push b)[i]? = some a := by
  have hlt : i < xs.size := (Array.getElem?_eq_some_iff.mp h).1
  rw [Array.getElem?_push_lt hlt, ← Array.getElem?_eq_getElem hlt, h]

private theorem pushConstant_entries (d : Draft) (k : Constant) (key : ConstantKey) : (d.pushConstant k).entries[key]?
      = if k.key? = some key then some d.constants.size else d.entries[key]? := by
  cases hkey : k.key? with
  | none => rw [pushConstant_none hkey, if_neg nofun]
  | some key' =>
    rw [pushConstant_some hkey, Std.HashMap.getElem?_insert]
    simp only [beq_iff_eq, Option.some.injEq]

theorem pushConstant_pooled (h : d.Pooled) (hnew : d.pooled? k = none)
    (hroom : d.constants.size ≤ maxWord) : (d.pushConstant k).Pooled := by
  refine ⟨fun key index => ?_, ?_⟩
  · simp only [pushConstant_entries, pushConstant_constants, Array.getElem?_push]
    by_cases hkey : k.key? = some key
    · -- The key is new, so the pushed constant is the one entry that has it.
      have hfresh : d.entries[key]? = none := by simpa [pooled?, hkey] using hnew
      have hother : ¬ ∃ c : Constant, d.constants[index]? = some c ∧ c.key? = some key := by
        rw [← h.indexed, hfresh]
        exact nofun
      rw [if_pos hkey]
      split
      · rename_i hindex
        simp [hindex, hkey]
      · rename_i hindex
        exact iff_of_false (fun heq => hindex (Option.some.inj heq).symm) hother
    · rw [if_neg hkey, h.indexed]
      split
      · rename_i hindex
        simp [hindex, hkey]
      · rfl
  · rw [pushConstant_constants, Array.size_push]
    omega

/-- All that adding a constant can do: it finds the entry, makes a new one, or fails for want of room. -/
theorem addConstant_cases (d : Draft) (k : Constant) :
    (∃ index, d.pooled? k = some index ∧ d.addConstant k = (.ok index, d)) ∨
      (d.pooled? k = none ∧ d.constants.size ≤ maxWord ∧
        d.addConstant k = (.ok d.constants.size, d.pushConstant k)) ∨
      d.pooled? k = none ∧ maxWord < d.constants.size ∧ d.addConstant k = (.error .tooManyConstants, d) := by
  cases hentry : d.pooled? k with
  | some index => exact .inl ⟨index, rfl, by simp only [addConstant, hentry]⟩
  | none =>
    by_cases hroom : d.constants.size ≤ maxWord
    · exact .inr (.inl ⟨rfl, hroom, by simp only [addConstant, hentry, if_pos hroom]⟩)
    · exact .inr (.inr ⟨rfl, Nat.lt_of_not_le hroom, by simp only [addConstant, hentry, if_neg hroom]⟩)

/-- What adding a constant does: the answer is the entry of that very constant, entries that were
there stay, and only the pool changes. -/
structure Adds (d : Draft) (k : Constant) (index : Nat) (d' : Draft) : Prop where
  bytes_eq : d'.bytes = d.bytes
  get : d'.constants[index]? = some k
  keeps : ∀ (i : Nat) c, d.constants[i]? = some c → d'.constants[i]? = some c
  only : ∀ (i : Nat) c, d'.constants[i]? = some c → d.constants[i]? = some c ∨ c = k
  pooled : d'.Pooled

theorem addConstant_adds (h : d.Pooled) (hadd : d.addConstant k = (.ok index, d')) : d.Adds k index d' := by
  obtain ⟨found, hentry, heq⟩ | ⟨hnew, hroom, heq⟩ | ⟨-, -, heq⟩ := d.addConstant_cases k <;>
    cases hadd.symm.trans heq
  · exact ⟨rfl, (h.pooled?_eq_some.mp hentry).2, fun _ _ hc => hc, fun _ _ hc => .inl hc, h⟩
  · refine ⟨pushConstant_bytes d k, ?_, fun i c hget => ?_, fun i c hget => ?_, pushConstant_pooled h hnew hroom⟩
    · rw [pushConstant_constants]
      exact Array.getElem?_push_size
    · rw [pushConstant_constants]
      exact getElem?_push_of_some hget
    · rw [pushConstant_constants, Array.getElem?_push] at hget
      split at hget
      · exact .inr (Option.some.inj hget).symm
      · exact .inl hget

theorem addConstant_ok (h : d.addConstant k = (.ok index, d')) : d'.constants = d.constants ∧ k.key?.isSome ∨
      d'.constants = d.constants.push k ∧ index = d.constants.size ∧ index ≤ maxWord := by
  obtain ⟨found, hentry, heq⟩ | ⟨-, hroom, heq⟩ | ⟨-, -, heq⟩ := d.addConstant_cases k <;> cases h.symm.trans heq
  · obtain ⟨key, hkey, -⟩ := Option.bind_eq_some_iff.mp hentry
    exact .inl ⟨rfl, hkey ▸ rfl⟩
  · exact .inr ⟨pushConstant_constants d k, rfl, hroom⟩

theorem addConstant_bytes (d : Draft) (k : Constant) : (d.addConstant k).2.bytes = d.bytes := by
  obtain ⟨_, -, heq⟩ | ⟨-, -, heq⟩ | ⟨-, -, heq⟩ := d.addConstant_cases k <;> rw [heq]
  exact pushConstant_bytes d k

theorem addConstant_lines (d : Draft) (k : Constant) : (d.addConstant k).2.lines = d.lines := by
  obtain ⟨_, -, heq⟩ | ⟨-, -, heq⟩ | ⟨-, -, heq⟩ := d.addConstant_cases k <;> rw [heq]
  cases hkey : k.key? with
  | none => rw [pushConstant_none hkey]
  | some key => rw [pushConstant_some hkey]

theorem addConstant_keeps (k : Constant)
    (h : d.constants[index]? = some c) : (d.addConstant k).2.constants[index]? = some c := by
  obtain ⟨_, -, heq⟩ | ⟨-, -, heq⟩ | ⟨-, -, heq⟩ := d.addConstant_cases k <;> rw [heq]
  · exact h
  · rw [pushConstant_constants]
    exact getElem?_push_of_some h
  · exact h

theorem addConstant_pooled (h : d.Pooled) (k : Constant) : (d.addConstant k).2.Pooled := by
  obtain ⟨index, -, heq⟩ | ⟨hnew, hroom, heq⟩ | ⟨-, -, heq⟩ := d.addConstant_cases k <;> rw [heq]
  · exact h
  · exact pushConstant_pooled h hnew hroom
  · exact h

/-! ### Filling the pool -/

def addAll (d : Draft) : List Constant → List (Except DraftFault Nat) × Draft
  | [] => ([], d)
  | c :: cs =>
    let (answer, d) := d.addConstant c
    let (answers, d) := d.addAll cs
    (answer :: answers, d)

/-- The answer to adding a constant, and the draft behind it. A number or text that is in the pool has its
entry already, also if the pool is full; anything else takes a new entry or does not fit. -/
structure Answers (d : Draft) (c : Constant) (answer : Except DraftFault Nat) (d' : Draft) : Prop where
  existing : (∃ index < d.constants.size, answer = .ok index) ↔ c.key?.isSome ∧ c ∈ d.constants
  found : ∀ index < d.constants.size, answer = .ok index → d.constants[index]? = some c ∧ d' = d
  new : ∀ index, answer = .ok index → d.constants.size ≤ index →
    index = d.constants.size ∧ d'.constants = d.constants.push c
  full : answer = .error .tooManyConstants ↔ ¬ (c.key?.isSome ∧ c ∈ d.constants) ∧ d.constants.size = 65536
  unchanged : ∀ fault, answer = .error fault → fault = .tooManyConstants ∧ d' = d

private theorem addConstant_answers (h : d.Pooled) (c : Constant) :
    d.Answers c (d.addConstant c).1 (d.addConstant c).2 := by
  have hsize : d.constants.size ≤ 65536 := h.size_le
  obtain ⟨index, hentry, heq⟩ | ⟨hnew, hroom, heq⟩ | ⟨hnew, hroom, heq⟩ := d.addConstant_cases c <;> rw [heq]
  · obtain ⟨hkey, hget⟩ := h.pooled?_eq_some.mp hentry
    have hlt : index < d.constants.size := (Array.getElem?_eq_some_iff.mp hget).1
    have hmem : c.key?.isSome ∧ c ∈ d.constants := ⟨hkey, Array.mem_of_getElem? hget⟩
    refine ⟨iff_of_true ⟨index, hlt, rfl⟩ hmem, ?_, ?_, iff_of_false nofun fun hfull => hfull.1 hmem, nofun⟩
    · rintro _ - ⟨⟩
      exact ⟨hget, rfl⟩
    · rintro _ ⟨⟩ hle
      exact absurd hlt (Nat.not_lt.mpr hle)
  · have hmem := h.pooled?_eq_none.mp hnew
    refine ⟨iff_of_false ?_ hmem, ?_, ?_, iff_of_false nofun fun hfull => ?_, nofun⟩
    · rintro ⟨_, hlt, ⟨⟩⟩
      exact Nat.lt_irrefl _ hlt
    · rintro _ hlt ⟨⟩
      exact absurd hlt (Nat.lt_irrefl _)
    · rintro _ ⟨⟩ -
      exact ⟨rfl, pushConstant_constants d c⟩
    · rw [hfull.2] at hroom
      exact absurd hroom (by decide)
  · have hmem := h.pooled?_eq_none.mp hnew
    refine ⟨iff_of_false (fun ⟨_, _, heq⟩ => nomatch heq) hmem, nofun, nofun, iff_of_true rfl ⟨hmem, ?_⟩, ?_⟩
    · exact Nat.le_antisymm hsize hroom
    · rintro _ ⟨⟩
      exact ⟨rfl, rfl⟩

private theorem addAll_pooled (h : d.Pooled) (cs : List Constant) : (d.addAll cs).2.Pooled := by
  induction cs generalizing d with
  | nil => exact h
  | cons c cs ih => exact ih (addConstant_pooled h c)

private theorem addAll_keeps (cs : List Constant) (hget : d.constants[i]? = some c) :
    (d.addAll cs).2.constants[i]? = some c := by
  induction cs generalizing d with
  | nil => exact hget
  | cons k cs ih => exact ih (addConstant_keeps k hget)

private theorem addAll_get (h : d.Pooled) (cs : List Constant) {n : Nat}
    (hanswer : (d.addAll cs).1[n]? = some (.ok index)) :
    ∃ c, cs[n]? = some c ∧ (d.addAll cs).2.constants[index]? = some c := by
  induction cs generalizing d n with
  | nil => cases hanswer
  | cons c cs ih =>
    cases n with
    | zero =>
      have hadd : d.addConstant c = (.ok index, (d.addConstant c).2) := Prod.ext (Option.some.inj hanswer) rfl
      exact ⟨c, rfl, addAll_keeps cs (addConstant_adds h hadd).get⟩
    | succ n => exact ih (addConstant_pooled h c) hanswer

/-- After adding any constants to a new draft, the pool is not too large, holds numbers and texts once each and
has them in its index under their own entries, and every answer still leads to the constant that was added. So
the next constant is answered by what the pool holds. -/
theorem pool_of_additions (cs : List Constant) : ∃ answers d, addAll {} cs = (answers, d) ∧ d.constants.size ≤ 65536 ∧
    (∀ (i j : Nat) (s : String), d.constants[i]? = some (.text s) → d.constants[j]? = some (.text s) → i = j) ∧
    (∀ (i j : Nat) (m n : Number), m.bits = n.bits →
      d.constants[i]? = some (.number m) → d.constants[j]? = some (.number n) → i = j) ∧
    (∀ key index, d.entries[key]? = some index ↔
      ∃ c : Constant, d.constants[index]? = some c ∧ c.key? = some key) ∧
    (∀ (n index : Nat), answers[n]? = some (.ok index) →
      ∃ c, cs[n]? = some c ∧ d.constants[index]? = some c) ∧
    ∀ c, d.Answers c (d.addConstant c).1 (d.addConstant c).2 := by
  have h := addAll_pooled pooled_empty cs
  refine ⟨_, _, rfl, h.size_le, fun i j s => h.unique rfl, ?_, h.indexed, ?_, addConstant_answers h⟩
  · rintro i j ⟨bits⟩ ⟨_⟩ ⟨⟩
    exact h.unique rfl
  · exact fun n index hanswer => addAll_get pooled_empty cs hanswer

end Draft

end Mudscript
