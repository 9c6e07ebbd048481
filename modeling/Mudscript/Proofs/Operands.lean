import Mudscript.Proofs.Decoding

/-!
# The code of expressions

Code that computes operands has a simple form, whatever expressions it comes from: operations that take
operands and leave others, and two ways to skip an operand. `Operands` says so, and everything else here is
read off it. Such code is left only at its end, its jumps go forward and land inside, it leaves a known number
of values on the stack, and it does not touch the values below them.
-/

namespace Mudscript

variable {back front : List Instruction}

/-! ### Code at an offset -/

def Code.Holds (code : Code) (offset : Nat) (is : List Instruction) : Prop :=
  ∃ front back, code.Lists (front ++ (is ++ back)) ∧ offset = Code.length front

namespace Code.Holds

variable {code : Code} {offset : Nat} {is js : List Instruction} {i : Instruction}

theorem whole (h : code.Lists is) : code.Holds 0 is := ⟨[], [], by simpa using h, rfl⟩

theorem left (h : code.Holds offset (is ++ js)) : code.Holds offset is := by
  obtain ⟨front, back, hlists, hoffset⟩ := h
  rw [List.append_assoc] at hlists
  exact ⟨front, js ++ back, hlists, hoffset⟩

theorem right (h : code.Holds offset (is ++ js)) : code.Holds (offset + length is) js := by
  obtain ⟨front, back, hlists, rfl⟩ := h
  refine ⟨front ++ is, back, ?_, (length_append _ _).symm⟩
  rwa [List.append_assoc, ← List.append_assoc is]

theorem head (h : code.Holds offset (i :: is)) : code.At offset i := by
  obtain ⟨front, back, hlists, rfl⟩ := h
  exact (hlists.at_iff _ i).mpr ⟨front, is ++ back, rfl, rfl⟩

theorem tail (h : code.Holds offset (i :: is)) : code.Holds (offset + i.size) is := by
  have hsplit : code.Holds offset ([i] ++ is) := h
  exact hsplit.right

theorem exists_split (h : code.Holds offset is) {here : Nat} (hi : code.At here i) (hle : offset ≤ here)
    (hlt : here < offset + length is) : ∃ front back, is = front ++ i :: back ∧ here = offset + length front := by
  obtain ⟨front, back, hlists, rfl⟩ := h
  obtain ⟨front', back', hsplit, rfl⟩ := (hlists.at_iff _ i).mp hi
  rcases List.append_eq_append_iff.mp hsplit with ⟨mid, rfl, hmid⟩ | ⟨mid, rfl, hmid⟩
  · rw [length_append] at hlt ⊢
    rcases List.append_eq_append_iff.mp hmid with ⟨more, rfl, _⟩ | ⟨more, rfl, hmore⟩
    · simp only [length_append] at hlt
      omega
    · cases more with
      | nil =>
        rw [List.append_nil] at hlt
        omega
      | cons j more =>
        cases hmore
        exact ⟨mid, more, rfl, rfl⟩
  · -- It would start before the part does.
    cases mid with
    | nil =>
      rw [List.append_nil] at hle hlt ⊢
      cases is with
      | nil => simp at hlt
      | cons j is =>
        cases hmid
        exact ⟨[], is, rfl, rfl⟩
    | cons j mid =>
      have hpos := j.size_pos
      simp only [length_append, length_cons] at hle
      omega

end Code.Holds

/-! ### Code that is left at its end -/

def Instruction.evaluates : Instruction → Bool
  | .closeUpvalue | .defineGlobal _ | .loop _ | .ret | .object _ | .compile | .inherit | .field _ | .method _ => false
  | _ => true

def Contained : List Instruction → Prop
  | [] => True
  | i :: is => i.evaluates = true ∧ (∀ distance, i.far? 0 = some distance → distance ≤ Code.length is) ∧ Contained is

namespace Contained

variable {is js : List Instruction} {i : Instruction}

theorem append (h : Contained is) (h' : Contained js) : Contained (is ++ js) := by
  induction is with
  | nil => exact h'
  | cons i is ih =>
    refine ⟨h.1, fun distance hfar => ?_, ih h.2.2⟩
    have hle := h.2.1 distance hfar
    show distance ≤ Code.length (is ++ js)
    rw [Code.length_append]
    omega

theorem plain (hi : i.evaluates = true) (hfar : i.far? 0 = none) (h : Contained is) : Contained (i :: is) :=
  ⟨hi, fun _ hsome => absurd (hfar.symm.trans hsome) nofun, h⟩

theorem of_split (h : Contained (front ++ i :: back)) :
    i.evaluates = true ∧ ∀ distance, i.far? 0 = some distance → distance ≤ Code.length back := by
  induction front with
  | nil => exact ⟨h.1, h.2.1⟩
  | cons j front ih => exact ih h.2.2

end Contained

/-! ### Operands -/

/-- The operations on operands that do nothing else and go on behind. -/
def Instruction.operates : Instruction → Bool
  | .pop | .closeUpvalue | .defineGlobal _ | .jump _ | .jumpIfFalse _ | .loop _ | .ret | .object _ | .compile
  | .inherit | .field _ | .method _ => false
  | _ => true

inductive Operands : List Instruction → Nat → Prop
  | nil : Operands [] 0
  | operation {is i n} : Operands is (n + i.taken) → i.operates = true → Operands (is ++ [i]) (n + i.given)
  | conjunction {is js n} : Operands is (n + 1) → Operands js 1 →
      Operands (is ++ .jumpIfFalse (Code.length js + 1) :: .pop :: js) (n + 1)
  | disjunction {is js n} : Operands is (n + 1) → Operands js 1 →
      Operands (is ++ .jumpIfFalse 3 :: .jump (Code.length js + 1) :: .pop :: js) (n + 1)

namespace Instruction

variable {i : Instruction}

theorem evaluates_of_operates (h : i.operates = true) : i.evaluates = true := by
  cases i <;> first | rfl | cases h

theorem far?_of_operates (h : i.operates = true) (next : Nat) : i.far? next = none := by
  cases i <;> first | rfl | cases h

end Instruction

namespace Operands

variable {is js : List Instruction} {n k : Nat}

theorem append (h : Operands is n) (h' : Operands js k) : Operands (is ++ js) (n + k) := by
  induction h' with
  | nil => simpa using h
  | @operation js i k _ hi ih =>
    rw [← List.append_assoc, ← Nat.add_assoc]
    exact .operation (Nat.add_assoc n k _ ▸ ih) hi
  | conjunction _ hright ih _ =>
    rw [← List.append_assoc, ← Nat.add_assoc]
    exact .conjunction ih hright
  | disjunction _ hright ih _ =>
    rw [← List.append_assoc, ← Nat.add_assoc]
    exact .disjunction ih hright

theorem singleton {i : Instruction} (hi : i.operates = true) (htaken : i.taken = 0) : Operands [i] i.given := by
  have h : Operands [] (0 + i.taken) := by
    rw [htaken]
    exact .nil
  simpa using h.operation hi

theorem contained (h : Operands is n) : Contained is := by
  induction h with
  | nil => trivial
  | operation _ hi ih =>
    exact ih.append (.plain (Instruction.evaluates_of_operates hi) (Instruction.far?_of_operates hi 0) trivial)
  | @conjunction is js _ _ _ ih ih' =>
    have hpop : Instruction.pop.size = 1 := rfl
    refine ih.append ⟨rfl, ?_, .plain rfl rfl ih'⟩
    rintro _ ⟨⟩
    rw [Code.length_cons, hpop]
    omega
  | @disjunction is js _ _ _ ih ih' =>
    have hpop : Instruction.pop.size = 1 := rfl
    have hjump : (Instruction.jump (Code.length js + 1)).size = 3 := rfl
    refine ih.append ⟨rfl, ?_, rfl, ?_, .plain rfl rfl ih'⟩
    · rintro _ ⟨⟩
      rw [Code.length_cons, hjump]
      omega
    · rintro _ ⟨⟩
      rw [Code.length_cons, hpop]
      omega

end Operands

end Mudscript
