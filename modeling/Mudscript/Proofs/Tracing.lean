import Mudscript.Proofs.Generation
import Mudscript.Proofs.Operands

/-!
# Code that keeps track of the stack

`Traces` says of a part of the code what is known of the values of a call before it and behind it, and
that every instruction in it finds the values it takes. What is known before each piece is written beside
the piece; the rules below put parts together and never look at it again.

A jump goes to a place in the part or to a place outside. The places outside come as `Ways`, and the one
rule about jumps is that a place at the seam of two parts need not be among the ways any more when the
parts are put together. The jumps to the end of a loop are open until the loop is complete.
-/

namespace Mudscript

open List

variable {distance offset target : Nat} {p : Piece} {τ' : Shape}

/-- Where jumps out of a part of the code may go, and with what known there: offsets outside the part, and
the end of the loop around it. -/
structure Ways where
  lands : Nat → Shape → Prop
  breaks : Shape → Prop

namespace Ways

def closed : Ways := ⟨fun _ _ => False, fun _ => False⟩

def label (w : Ways) (offset : Nat) (σ : Shape) : Ways :=
  { w with lands := fun target υ => w.lands target υ ∨ (target = offset ∧ υ.Flows σ) }

end Ways

/-! ### What is known beside the pieces -/

abbrev Trace := List (Shape × Piece)

theorem Piece.size_pos (p : Piece) : 0 < p.size := by
  cases p with
  | write i => exact i.size_pos
  | break_ => exact Nat.succ_pos 2

namespace Trace

variable {A B : Trace} {τ : Shape}

def size (A : Trace) : Nat := Pieces.size (A.map Prod.snd)

@[simp] theorem size_cons (σ : Shape) (p : Piece) (A : Trace) : size ((σ, p) :: A) = p.size + size A := rfl

@[simp] theorem size_append (A B : Trace) : size (A ++ B) = size A + size B := by
  simp [size]

/-- What is known where the code starts, if `τ` is known where it ends. -/
def entry (τ : Shape) : Trace → Shape
  | [] => τ
  | (σ, _) :: _ => σ

theorem entry_append (A B : Trace) : (A ++ B).entry τ = A.entry (B.entry τ) := by
  cases A <;> rfl

/-- There is a place at an offset of the code, or at its end. -/
def Lands (A : Trace) (τ : Shape) (b target : Nat) (υ : Shape) : Prop :=
  ∃ A1 A2 : Trace, A = A1 ++ A2 ∧ target = b + A1.size ∧ υ.Flows (A2.entry τ)

theorem Lands.left {b : Nat} {υ : Shape} (h : A.Lands (B.entry τ) b target υ) : (A ++ B).Lands τ b target υ := by
  obtain ⟨A1, A2, rfl, htarget, hflows⟩ := h
  exact ⟨A1, A2 ++ B, append_assoc .., htarget, (entry_append A2 B).symm ▸ hflows⟩

theorem Lands.right {b : Nat} {υ : Shape} (h : B.Lands τ (b + A.size) target υ) : (A ++ B).Lands τ b target υ := by
  obtain ⟨B1, B2, rfl, htarget, hflows⟩ := h
  refine ⟨A ++ B1, B2, (append_assoc ..).symm, ?_, hflows⟩
  rw [htarget, size_append, Nat.add_assoc]

theorem Lands.weaken {b : Nat} {υ : Shape} (h : A.Lands τ b target υ)
    (hflows : τ.Flows τ') : A.Lands τ' b target υ := by
  obtain ⟨A1, A2, rfl, htarget, hυ⟩ := h
  refine ⟨A1, A2, rfl, htarget, ?_⟩
  cases A2 with
  | nil => exact hυ.trans hflows
  | cons _ _ => exact hυ

end Trace

/-- An instruction finds what it takes, and leads to places where no more is known than behind it. -/
structure Instruction.Fine (r : Routine) (lands : Nat → Shape → Prop) (offset : Nat) (σ : Shape)
    (i : Instruction) : Prop where
  proper : σ.Proper
  allowed : i.Allowed r σ
  near : ∀ target, i.near? (offset + i.size) = some target → lands target (i.after r.code.constants σ)
  far : ∀ target, i.far? (offset + i.size) = some target → lands target (i.after r.code.constants σ)
  back : ∀ distance, i = .loop distance → distance ≤ offset + i.size

theorem Instruction.Fine.mono {r : Routine} {lands lands' : Nat → Shape → Prop} {σ : Shape}
    {i : Instruction} (h : i.Fine r lands offset σ) (hle : ∀ target υ, lands target υ → lands' target υ) :
    i.Fine r lands' offset σ :=
  ⟨h.proper, h.allowed, fun target ht => hle _ _ (h.near target ht), fun target ht => hle _ _ (h.far target ht), h.back⟩

def Piece.Fine (r : Routine) (w : Ways) (offset : Nat) (σ : Shape) : Piece → Prop
  | .write i => i.Fine r w.lands offset σ
  | .break_ => σ.Proper ∧ w.breaks σ

theorem Piece.Fine.mono {r : Routine} {w w' : Ways} {σ : Shape}
    (h : p.Fine r w offset σ) (hlands : ∀ target υ, w.lands target υ → w'.lands target υ)
    (hbreaks : ∀ υ, w.breaks υ → w'.breaks υ) : p.Fine r w' offset σ := by
  cases p with
  | write i => exact Instruction.Fine.mono h hlands
  | break_ => exact ⟨h.1, hbreaks _ h.2⟩

/-- The places of the code itself are open to its jumps as well. -/
def Ways.inside (w : Ways) (A : Trace) (τ : Shape) (b : Nat) : Ways :=
  { w with lands := fun target υ => w.lands target υ ∨ A.Lands τ b target υ }

/-- Every piece of the code, which starts at `b`, is in order. -/
def Trace.Sound (r : Routine) (w : Ways) (b : Nat) (A : Trace) (τ : Shape) : Prop :=
  ∀ (A1 : Trace) σ p (A2 : Trace), A = A1 ++ (σ, p) :: A2 → p.Fine r (w.inside A τ b) (b + A1.size) σ

/-- Code that can be run through from a place where `σ` is known, and leads to one where `τ` is known. -/
def Traces (r : Routine) (w : Ways) (b : Nat) (σ : Shape) (ps : List Piece) (τ : Shape) : Prop :=
  ∃ A : Trace, A.map Prod.snd = ps ∧ σ.Flows (A.entry τ) ∧ A.Sound r w b τ

section

variable {r : Routine} {w w' : Ways} {b : Nat} {σ τ υ : Shape} {A B : Trace} {ps qs : List Piece}
  {i : Instruction}

namespace Trace.Sound

theorem mono (h : A.Sound r w b τ) (hlands : ∀ target υ, w.lands target υ → w'.lands target υ ∨ A.Lands τ b target υ)
    (hbreaks : ∀ υ, w.breaks υ → w'.breaks υ) : A.Sound r w' b τ :=
  fun A1 σ p A2 hsplit => (h A1 σ p A2 hsplit).mono (fun target υ hυ => hυ.elim (hlands target υ) .inr) hbreaks

theorem weaken (h : A.Sound r w b τ) (hflows : τ.Flows υ) : A.Sound r w b υ :=
  fun A1 σ p A2 hsplit => (h A1 σ p A2 hsplit).mono (fun _ _ hυ => hυ.imp_right (·.weaken hflows)) fun _ => id

theorem append (hA : A.Sound r w b (B.entry τ)) (hB : B.Sound r w (b + A.size) τ) : (A ++ B).Sound r w b τ := by
  intro A1 σ p A2 hsplit
  have hright : ∀ B1 : Trace, B = B1 ++ (σ, p) :: A2 → A1 = A ++ B1 →
      p.Fine r (w.inside (A ++ B) τ b) (b + A1.size) σ := by
    rintro B1 hB1 rfl
    rw [size_append, ← Nat.add_assoc]
    exact (hB B1 σ p A2 hB1).mono (fun _ _ hυ => hυ.imp_right .right) fun _ => id
  rcases append_eq_append_iff.mp hsplit with ⟨mid, hA1, hmid⟩ | ⟨mid, hmid, hA2⟩
  · exact hright mid hmid hA1
  · cases mid with
    | nil => exact hright [] hA2.symm (by simpa using hmid.symm)
    | cons q mid =>
      obtain ⟨rfl, _⟩ := List.cons.inj hA2
      exact (hA A1 σ p mid hmid).mono (fun _ _ hυ => hυ.imp_right .left) fun _ => id

end Trace.Sound

namespace Traces

/-! ### Putting parts together -/

theorem nil (h : σ.Flows τ) : Traces r w b σ [] τ := ⟨[], rfl, h, fun _ _ _ _ h => by simp at h⟩

theorem weaken {σ' : Shape} (h : Traces r w b σ ps τ) (hσ : σ'.Flows σ) (hτ : τ.Flows τ') : Traces r w b σ' ps τ' := by
  obtain ⟨A, hps, hentry, hA⟩ := h
  refine ⟨A, hps, hσ.trans ?_, hA.weaken hτ⟩
  cases A with
  | nil => exact hentry.trans hτ
  | cons _ _ => exact hentry

theorem mono (h : Traces r w b σ ps τ) (hlands : ∀ target υ, w.lands target υ → w'.lands target υ)
    (hbreaks : ∀ υ, w.breaks υ → w'.breaks υ) : Traces r w' b σ ps τ := by
  obtain ⟨A, hps, hentry, hA⟩ := h
  exact ⟨A, hps, hentry, hA.mono (fun target υ hυ => .inl (hlands target υ hυ)) hbreaks⟩

theorem labelled (h : Traces r w b σ ps τ) (offset : Nat) (υ : Shape) :
    Traces r (w.label offset υ) b σ ps τ := h.mono (fun _ _ => .inl) fun _ => id

theorem seams {ν : Shape} {rs}
    (hps : Traces r ((w.label (b + Pieces.size ps) υ).label (b + Pieces.size ps + Pieces.size qs) ν) b σ ps υ)
    (hqs : Traces r ((w.label (b + Pieces.size ps) υ).label (b + Pieces.size ps + Pieces.size qs) ν)
      (b + Pieces.size ps) υ qs ν)
    (hrs : Traces r ((w.label (b + Pieces.size ps) υ).label (b + Pieces.size ps + Pieces.size qs) ν)
      (b + Pieces.size ps + Pieces.size qs) ν rs τ) : Traces r w b σ (ps ++ (qs ++ rs)) τ := by
  obtain ⟨A, rfl, hσ, hA⟩ := hps
  obtain ⟨B, rfl, hυ, hB⟩ := hqs
  obtain ⟨C, rfl, hν, hC⟩ := hrs
  have hBC : υ.Flows ((B ++ C).entry τ) := by
    rw [Trace.entry_append]
    cases B with
    | nil => exact hυ.trans hν
    | cons _ _ => exact hυ
  refine ⟨A ++ (B ++ C), by simp, ?_, ?_⟩
  · rw [Trace.entry_append]
    cases A with
    | nil => exact hσ.trans hBC
    | cons _ _ => exact hσ
  · refine ((hA.weaken hBC).append ((hB.weaken hν).append hC)).mono (fun target η hη => ?_) fun _ => id
    rcases hη with (hw | ⟨rfl, hflows⟩) | ⟨rfl, hflows⟩
    · exact .inl hw
    · exact .inr ⟨A, B ++ C, rfl, rfl, hflows.trans hBC⟩
    · refine .inr ⟨A ++ B, C, (append_assoc ..).symm, ?_, hflows.trans hν⟩
      rw [Trace.size_append, ← Nat.add_assoc]
      rfl

theorem seam (hps : Traces r (w.label (b + Pieces.size ps) υ) b σ ps υ)
    (hqs : Traces r (w.label (b + Pieces.size ps) υ) (b + Pieces.size ps) υ qs τ) : Traces r w b σ (ps ++ qs) τ :=
  show Traces r w b σ (ps ++ ([] ++ qs)) τ from
    seams (hps.labelled _ _) (nil (.refl υ)) (hqs.labelled _ _)

theorem append (hps : Traces r w b σ ps υ) (hqs : Traces r w (b + Pieces.size ps) υ qs τ) :
    Traces r w b σ (ps ++ qs) τ := (hps.labelled _ _).seam (hqs.labelled _ _)

theorem atEnd (h : Traces r (w.label (b + Pieces.size ps) τ) b σ ps τ) : Traces r w b σ ps τ := by
  have hall := h.seam (nil (.refl τ))
  rwa [append_nil] at hall

theorem atStart (h : Traces r (w.label b σ) b σ ps τ) : Traces r w b σ ps τ :=
  show Traces r w b σ ([] ++ ps) τ from seam (nil (.refl σ)) h

theorem cons (hp : Traces r w b σ [p] υ) (hps : Traces r w (b + p.size) υ ps τ) :
    Traces r w b σ (p :: ps) τ := hp.append hps

/-! ### Instructions -/

theorem single (h : i.Fine r (fun target υ => w.lands target υ ∨ (target = b + i.size ∧ υ.Flows τ)) b σ) :
    Traces r w b σ [.write i] τ := by
  refine ⟨[(σ, .write i)], rfl, .refl σ, fun A1 σ' p A2 hsplit => ?_⟩
  cases A1 with
  | nil =>
    cases hsplit
    refine Instruction.Fine.mono h fun target υ hυ => hυ.imp_right ?_
    rintro ⟨rfl, hflows⟩
    exact ⟨[(σ, .write i)], [], rfl, rfl, hflows⟩
  | cons _ A1 => simp at hsplit

theorem plain (hproper : σ.Proper) (hallowed : i.Allowed r σ) (hfar : ∀ next, i.far? next = none)
    (hflows : (i.after r.code.constants σ).Flows τ) : Traces r w b σ [.write i] τ := by
  refine single ⟨hproper, hallowed, fun target ht => .inr ⟨Instruction.near?_eq ht, hflows⟩, fun target ht => ?_, ?_⟩
  · rw [hfar] at ht
    cases ht
  · rintro distance rfl
    cases hfar 0

theorem jumpTo (hi : i = .jump target ∨ i = .jumpIfFalse target) (hproper : σ.Proper)
    (htaken : σ.locals + i.taken ≤ σ.height) (hlands : ∀ υ, υ.Flows { σ with top := none } → w.lands (b + 3 + target) υ)
    (hnear : i = .jumpIfFalse target → Shape.Flows { σ with top := none } τ) : Traces r w b σ [.write i] τ := by
  have hafter : (i.after r.code.constants σ).Flows { σ with top := none } := by
    rcases hi with rfl | rfl
    · exact ⟨rfl, Nat.min_le_left _ _, by simp [Instruction.after, Instruction.captures], .inl rfl⟩
    · have hpos : 1 ≤ σ.height := by
        have hle : σ.locals + 1 ≤ σ.height := htaken
        omega
      refine ⟨(Nat.sub_add_cancel hpos).symm,
        Nat.min_le_left _ _, by simp [Instruction.after, Instruction.captures], .inl rfl⟩
  refine single ⟨hproper, ?_, fun target' ht => ?_, fun target' ht => .inl ?_, ?_⟩
  · rcases hi with rfl | rfl <;> exact ⟨trivial, htaken⟩
  · rcases hi with rfl | rfl
    · cases ht
    · exact .inr ⟨Instruction.near?_eq ht, hafter.trans (hnear rfl)⟩
  · have heq : target' = b + 3 + target := by
      rcases hi with rfl | rfl <;> exact (Option.some.inj ht).symm
    rw [heq]
    exact hlands _ hafter
  · rintro distance rfl
    rcases hi with h | h <;> cases h

theorem jump (hproper : σ.Proper) (htop : σ.top = none)
    (hlands : ∀ υ, υ.Flows σ → w.lands (b + 3 + distance) υ) : Traces r w b σ [.write (.jump distance)] τ := by
  refine jumpTo (.inl rfl) hproper hproper.locals_le (fun υ hυ => hlands υ ?_) nofun
  rwa [← htop] at hυ

theorem branch (hproper : σ.Proper) (htop : σ.top = none) (htaken : σ.locals < σ.height)
    (hlands : ∀ υ, υ.Flows σ → w.lands (b + 3 + distance) υ) : Traces r w b σ [.write (.jumpIfFalse distance)] σ := by
  have heq : ({ σ with top := none } : Shape) = σ := by rw [← htop]
  refine jumpTo (.inr rfl) hproper htaken (fun υ hυ => hlands υ (heq ▸ hυ)) fun _ => ?_
  rw [heq]
  exact .refl σ

theorem loop (hproper : σ.Proper) (htop : σ.top = none) (hle : distance ≤ b + 3)
    (hlands : ∀ υ, υ.Flows σ → w.lands (b + 3 - distance) υ) : Traces r w b σ [.write (.loop distance)] τ := by
  have hafter : ((Instruction.loop distance).after r.code.constants σ).Flows σ :=
    ⟨rfl, Nat.min_le_left _ _, by simp [Instruction.after, Instruction.captures], .inl htop⟩
  refine single ⟨hproper, ⟨trivial, hproper.locals_le⟩, nofun, fun target ht => .inl ?_, ?_⟩
  · rw [← Option.some.inj ht]
    exact hlands _ hafter
  · rintro _ ⟨⟩
    exact hle

theorem break_ (hproper : σ.Proper) (hbreaks : w.breaks σ) : Traces r w b σ [.break_] τ := by
  refine ⟨[(σ, .break_)], rfl, .refl σ, fun A1 σ' p A2 hsplit => ?_⟩
  cases A1 with
  | nil =>
    cases hsplit
    exact ⟨hproper, hbreaks⟩
  | cons _ A1 => simp at hsplit

end Traces

/-! ### Values above the locals -/

def Shape.above (n : Nat) (captured : Set Nat) (h : Nat) : Shape := ⟨h, n, captured, none⟩

section

variable {n h : Nat} {captured : Set Nat}

theorem Shape.above_proper (hpos : 0 < n) (hcaptured : ∀ k ∈ captured, k < n) (hle : n ≤ h) :
    (Shape.above n captured h).Proper := ⟨hpos, hle, hcaptured⟩

theorem Traces.compute (hpos : 0 < n) (hcaptured : ∀ k ∈ captured, k < n) (hle : n ≤ h)
    (hfar : ∀ next, i.far? next = none) (hoperands : i.OperandsAllowed r (.above n captured (h + i.taken)))
    (hvalues : i.ValuesAllowed r (.above n captured (h + i.taken)))
    (hcaptures : ∀ k, ⟨true, k⟩ ∈ i.captures → k ∈ captured) :
    Traces r w b (.above n captured (h + i.taken)) [.write i] (.above n captured (h + i.given)) := by
  refine .plain (Shape.above_proper hpos hcaptured (Nat.le_trans hle (Nat.le_add_right _ _)))
    ⟨hoperands, hvalues⟩ hfar ?_
  refine ⟨?_, Nat.min_le_left _ _, ?_, .inl rfl⟩
  · show h + i.given = h + i.taken - i.taken + i.given
    omega
  · rintro k (⟨hk, _⟩ | hk)
    · exact hk
    · exact hcaptures k hk

theorem Traces.pop (hpos : 0 < n) (hcaptured : ∀ k ∈ captured, k < n) (hle : n ≤ h) :
    Traces r w b (.above n captured (h + 1)) [.write .pop] (.above n captured h) := by
  refine .compute (i := .pop) hpos hcaptured hle (fun _ => rfl) trivial ⟨?_, fun hk => ?_⟩ nofun
  · exact Nat.succ_lt_succ (Nat.lt_of_lt_of_le hpos hle)
  · exact absurd (hcaptured _ hk) (Nat.not_lt.mpr hle)

/-- The operands of an instruction make sense wherever there are these locals. -/
structure Instruction.Bears (r : Routine) (n : Nat) (captured : Set Nat) (i : Instruction) : Prop where
  operands : ∀ h, n ≤ h → i.OperandsAllowed r (.above n captured h)
  captures : ∀ k, ⟨true, k⟩ ∈ i.captures → k ∈ captured

private theorem Instruction.values_of_operates (hi : i.operates = true) (r : Routine) (σ : Shape) :
    i.ValuesAllowed r σ ↔ σ.locals + i.taken ≤ σ.height := by
  cases i <;> first | exact Iff.rfl | cases hi

theorem Traces.operation (hpos : 0 < n) (hcaptured : ∀ k ∈ captured, k < n) (hle : n ≤ h) (hi : i.operates = true)
    (hbears : i.Bears r n captured) :
    Traces r w b (.above n captured (h + i.taken)) [.write i] (.above n captured (h + i.given)) := by
  refine .compute hpos hcaptured hle (Instruction.far?_of_operates hi)
    (hbears.operands _ (Nat.le_trans hle (Nat.le_add_right _ _))) ?_ hbears.captures
  rw [Instruction.values_of_operates hi]
  show n + i.taken ≤ h + i.taken
  omega

theorem Operands.traces {is} {k : Nat} (hk : Operands is k)
    (hpos : 0 < n) (hcaptured : ∀ k ∈ captured, k < n) (hbears : ∀ i ∈ is, i.Bears r n captured) :
    ∀ {w : Ways} {b h : Nat}, n ≤ h →
      Traces r w b (.above n captured h) (written is) (.above n captured (h + k)) := by
  induction hk with
  | nil => exact fun _ => .nil (.refl _)
  | @operation is i k _ hi ih =>
    rw [forall_mem_append, forall_mem_singleton] at hbears
    intro w b h hle
    rw [written_append]
    have hlast := Traces.operation (w := w) (b := b + Pieces.size (written is)) hpos hcaptured
      (Nat.le_trans hle (Nat.le_add_right h k)) hi hbears.2
    rw [Nat.add_assoc, Nat.add_assoc] at hlast
    exact (ih hbears.1 hle).append hlast
  | @conjunction is js k _ _ ih ih' =>
    simp only [forall_mem_append, forall_mem_cons] at hbears
    intro w b h hle
    have hle' := Nat.le_trans hle (Nat.le_add_right h k)
    have hproper := Shape.above_proper hpos hcaptured (Nat.le_succ_of_le hle')
    rw [written_append, written_cons, written_cons]
    refine .atEnd ((ih hbears.1 hle).append (.cons (.branch hproper rfl (Nat.lt_succ_of_le hle') ?_)
      (.cons (.pop hpos hcaptured hle') (ih' hbears.2.2.2 hle'))))
    intro υ hυ
    refine .inr ⟨?_, hυ⟩
    simp
    omega
  | @disjunction is js k _ _ ih ih' =>
    simp only [forall_mem_append, forall_mem_cons] at hbears
    intro w b h hle
    have hle' := Nat.le_trans hle (Nat.le_add_right h k)
    have hproper := Shape.above_proper hpos hcaptured (Nat.le_succ_of_le hle')
    rw [written_append, written_cons, written_cons, written_cons]
    show Traces r w b _ (written is ++ ([_, _] ++ _)) _
    refine .atEnd ((ih hbears.1 hle).append (.seam (υ := .above n captured (h + k + 1))
      (.cons (.branch hproper rfl (Nat.lt_succ_of_le hle') fun υ hυ => .inr ⟨rfl, hυ⟩)
        (.jump hproper rfl fun υ hυ => .inl (.inr ⟨?_, hυ⟩)))
      (.cons (.pop hpos hcaptured hle') (ih' hbears.2.2.2.2 hle'))))
    simp
    omega

end

/-! ### The end of a loop -/

/-- The jumps to the end of a loop, which comes `exit` bytes behind the pieces, are complete. -/
def Pieces.aimed (exit : Nat) : List Piece → List Instruction
  | [] => []
  | .write i :: ps => i :: aimed exit ps
  | .break_ :: ps => .jump (size ps + exit) :: aimed exit ps

theorem Pieces.length_aimed (exit : Nat) (ps : List Piece) : Code.length (aimed exit ps) = size ps := by
  induction ps with
  | nil => rfl
  | cons p ps ih =>
    cases p with
    | write i => rw [aimed, Code.length_cons, ih]; rfl
    | break_ => rw [aimed, Code.length_cons, ih]; rfl

namespace Trace

def aimed (exit : Nat) : Trace → Trace
  | [] => []
  | (σ, .write i) :: A => (σ, .write i) :: aimed exit A
  | (σ, .break_) :: A => (σ, .write (.jump (size A + exit))) :: aimed exit A

private theorem aimed_pieces (exit : Nat) (A : Trace) :
    (A.aimed exit).map Prod.snd = written (Pieces.aimed exit (A.map Prod.snd)) := by
  induction A with
  | nil => rfl
  | cons a A ih =>
    obtain ⟨σ, _ | _⟩ := a
    · exact congrArg _ ih
    · exact congrArg _ ih

private theorem size_aimed (exit : Nat) (A : Trace) : (A.aimed exit).size = A.size := by
  induction A with
  | nil => rfl
  | cons a A ih =>
    obtain ⟨σ, _ | _⟩ := a
    · rw [aimed, size_cons, size_cons, ih]
    · rw [aimed, size_cons, size_cons, ih]
      rfl

theorem entry_aimed (exit : Nat) (A : Trace) : (A.aimed exit).entry τ = A.entry τ := by
  rcases A with _ | ⟨⟨σ, _ | _⟩, A⟩ <;> rfl

private theorem aimed_append (exit : Nat) (A B : Trace) :
    (A ++ B).aimed exit = A.aimed (B.size + exit) ++ B.aimed exit := by
  induction A with
  | nil => rfl
  | cons a A ih =>
    obtain ⟨σ, _ | _⟩ := a
    · exact congrArg _ ih
    · simp only [cons_append, aimed, ih, size_append, Nat.add_assoc]

theorem Lands.aimed (h : A.Lands τ b target υ) (exit : Nat) : (A.aimed exit).Lands τ b target υ := by
  obtain ⟨A1, A2, rfl, rfl, hflows⟩ := h
  refine ⟨_, _, aimed_append exit A1 A2, ?_, ?_⟩
  · rw [size_aimed]
  · rwa [entry_aimed]

private theorem exists_of_aimed {exit : Nat} {A1 A2 : Trace} {q : Piece} (h : A.aimed exit = A1 ++ (σ, q) :: A2) :
    ∃ (B1 B2 : Trace) (p : Piece), A = B1 ++ (σ, p) :: B2 ∧ A1.size = B1.size ∧
      (q = p ∧ p ≠ .break_ ∨ p = .break_ ∧ q = .write (.jump (B2.size + exit))) := by
  induction A generalizing A1 with
  | nil => simp [Trace.aimed] at h
  | cons a A ih =>
    obtain ⟨σ', p⟩ := a
    cases A1 with
    | nil =>
      cases p with
      | write i =>
        cases h
        exact ⟨[], A, _, rfl, rfl, .inl ⟨rfl, nofun⟩⟩
      | break_ =>
        cases h
        exact ⟨[], A, _, rfl, rfl, .inr ⟨rfl, rfl⟩⟩
    | cons b A1 =>
      have hrest : Trace.aimed exit A = A1 ++ (σ, q) :: A2 ∧ b.2.size = p.size := by
        cases p with
        | write i =>
          obtain ⟨rfl, hrest⟩ := List.cons.inj h
          exact ⟨hrest, rfl⟩
        | break_ =>
          obtain ⟨rfl, hrest⟩ := List.cons.inj h
          exact ⟨hrest, rfl⟩
      obtain ⟨B1, B2, p', rfl, hsize, hq⟩ := ih hrest.1
      refine ⟨(σ', p) :: B1, B2, p', rfl, ?_, hq⟩
      rw [size_cons, size_cons, hsize, hrest.2]

end Trace

/-- When a loop is complete, its breaks are jumps to the place behind it. -/
theorem Traces.aimed {ε : Shape} {breaks : Shape → Prop} (h : Traces r w b σ ps τ) (exit : Nat)
    (hbreaks : ∀ υ, w.breaks υ → υ.Flows ε) (htop : ε.top = none) :
    Traces r (Ways.label { w with breaks } (b + Pieces.size ps + exit) ε) b σ (written (Pieces.aimed exit ps)) τ := by
  obtain ⟨A, rfl, hentry, hA⟩ := h
  refine ⟨A.aimed exit, A.aimed_pieces exit, A.entry_aimed exit ▸ hentry, fun A1 σ' q A2 hsplit => ?_⟩
  obtain ⟨B1, B2, p, hB, hsize, ⟨rfl, hwrite⟩ | ⟨rfl, rfl⟩⟩ := Trace.exists_of_aimed hsplit
  · cases q with
    | break_ => exact absurd rfl hwrite
    | write i =>
      rw [hsize]
      exact Instruction.Fine.mono (hA B1 σ' (.write i) B2 hB) fun target υ hυ => hυ.imp .inl (·.aimed exit)
  · obtain ⟨hproper, hυ⟩ := hA B1 σ' .break_ B2 hB
    rw [hsize]
    refine ⟨hproper, ⟨trivial, hproper.locals_le⟩, nofun, fun target ht => .inl (.inr ⟨?_, ?_⟩), nofun⟩
    · rw [← Option.some.inj ht, hB]
      show b + B1.size + 3 + (B2.size + exit) = b + Trace.size (B1 ++ (σ', .break_) :: B2) + exit
      rw [Trace.size_append, Trace.size_cons, show Piece.size .break_ = 3 from rfl]
      omega
    · obtain ⟨hheight, hlocals, hcaptured, _⟩ := hbreaks _ hυ
      refine ⟨hheight, (Nat.min_le_left _ _).trans hlocals, ?_, .inl htop⟩
      rintro k (⟨hk, _⟩ | hk)
      · exact hcaptured hk
      · exact absurd hk not_mem_nil

/-! ### Layouts -/

def Trace.shapeAt (offset : Nat) : Trace → Shape
  | [] => .entry 0
  | (σ, p) :: A => if offset < p.size then σ else shapeAt (offset - p.size) A

theorem Trace.shapeAt_size (A1 A2 : Trace) (p : Piece) : Trace.shapeAt A1.size (A1 ++ (σ, p) :: A2) = σ := by
  induction A1 with
  | nil =>
    exact if_pos p.size_pos
  | cons a A1 ih =>
    rw [Trace.size_cons]
    show (if a.2.size + Trace.size A1 < a.2.size then _ else _) = _
    rw [if_neg (by omega), Nat.add_sub_cancel_left]
    exact ih

theorem Traces.layout {is} (h : Traces r .closed 0 (.entry r.arity) (written is) τ)
    (hlists : r.code.Lists (is ++ [.ret])) (hproper : τ.Proper) (hret : Instruction.ret.Allowed r τ)
    (hconstructs : r.kind = .object → ∃ name, r.code.At 0 (.object name)) : ∃ shape, r.Layout shape := by
  obtain ⟨A, hpieces, hentry, hA⟩ := h
  obtain ⟨B, hB⟩ : ∃ B : Trace, B = A ++ [(τ, .write .ret)] := ⟨_, rfl⟩
  have hpiecesB : B.map Prod.snd = written (is ++ [.ret]) := by
    rw [hB, map_append, hpieces, written_append]
    rfl
  have hsize : r.code.size = B.size := by
    rw [hlists.size_eq, ← Pieces.size_written, ← hpiecesB]
    rfl
  have hat : ∀ {offset i}, r.code.At offset i →
      ∃ (A1 A2 : Trace) (σ : Shape), B = A1 ++ (σ, .write i) :: A2 ∧ offset = A1.size := by
    intro offset i hi
    obtain ⟨front, back, hsplit, rfl⟩ := (hlists.at_iff _ _).mp hi
    rw [hsplit, written_append, written_cons] at hpiecesB
    obtain ⟨A1, A3, rfl, hA1, hA3⟩ := map_eq_append_iff.mp hpiecesB
    obtain ⟨⟨σ, _⟩, A2, rfl, rfl, _⟩ := map_eq_cons_iff.mp hA3
    refine ⟨A1, A2, σ, rfl, ?_⟩
    rw [Trace.size, hA1, Pieces.size_written]
  have hfine : ∀ {A1 A2 : Trace} {σ i}, B = A1 ++ (σ, .write i) :: A2 → i.Fine r (A.Lands τ 0) A1.size σ := by
    intro A1 A2 σ i hsplit
    rcases eq_nil_or_concat A2 with rfl | ⟨A2, a, rfl⟩
    · obtain ⟨rfl, hlast⟩ := append_inj' (hB.symm.trans hsplit) rfl
      cases hlast
      exact ⟨hproper, hret, nofun, nofun, nofun⟩
    · rw [hB, concat_eq_append, ← cons_append, ← append_assoc] at hsplit
      have hfine := hA A1 σ (.write i) A2 (append_inj' hsplit rfl).1
      rw [Nat.zero_add] at hfine
      exact Instruction.Fine.mono hfine fun _ _ hυ => hυ.resolve_left id
  have hlands : ∀ {target υ}, A.Lands τ 0 target υ →
      r.code.Boundary target ∧ target < r.code.size ∧ υ.Flows (B.shapeAt target) := by
    rintro target υ ⟨A1, A2, rfl, rfl, hυ⟩
    obtain ⟨σ, p, A3, hA3, hσ⟩ : ∃ σ p A3, A2 ++ [(τ, .write .ret)] = (σ, p) :: A3 ∧ A2.entry τ = σ := by
      cases A2 with
      | nil => exact ⟨_, _, _, rfl, rfl⟩
      | cons a A2 => exact ⟨_, _, _, rfl, rfl⟩
    rw [append_assoc, hA3] at hB
    have hpos : 0 < p.size := p.size_pos
    have hmap := hpiecesB
    rw [hB, map_append] at hmap
    obtain ⟨front, back, hsplit, hfront, _⟩ := map_eq_append_iff.mp hmap.symm
    have hoffset : A1.size = Code.length front := by
      rw [Trace.size, ← hfront, ← written, Pieces.size_written]
    refine ⟨(hlists.boundary_iff _).mpr ⟨front, back, hsplit, ?_⟩, ?_, ?_⟩
    · rw [Nat.zero_add, hoffset]
    · rw [hsize, hB, Trace.size_append, Trace.size_cons]
      omega
    · rw [Nat.zero_add, hB, Trace.shapeAt_size, ← hσ]
      exact hυ
  refine ⟨fun offset => B.shapeAt offset, ?_, ?_, ?_, ?_, ?_, ?_, ?_, ?_, ?_, hconstructs⟩
  · rw [hlists.size_eq]
    exact (hlists.boundary_iff _).mpr ⟨_, [], (append_nil _).symm, rfl⟩
  · rw [hlists.size_eq, Code.length_append]
    exact Nat.add_pos_right _ Nat.one_pos
  · intro offset hboundary hlt
    obtain ⟨i, hi⟩ := hlists.exists_at hboundary hlt
    obtain ⟨front, back, hsplit, rfl⟩ := (hlists.at_iff _ _).mp hi
    refine ⟨i, hi.instruction, ?_⟩
    rw [hlists.size_eq, hsplit, Code.length_append, Code.length_cons]
    omega
  · have hfirst := (hlands ⟨[], A, rfl, rfl, hentry⟩).2.2
    exact hfirst
  · intro offset i hi
    obtain ⟨A1, A2, σ, hsplit, rfl⟩ := hat hi
    rw [hsplit, Trace.shapeAt_size]
    exact (hfine hsplit).proper
  · intro offset i hi
    obtain ⟨A1, A2, σ, hsplit, rfl⟩ := hat hi
    rw [hsplit, Trace.shapeAt_size]
    exact (hfine hsplit).allowed
  · intro offset i target hi ht
    obtain ⟨A1, A2, σ, hsplit, rfl⟩ := hat hi
    have hnear := hlands ((hfine hsplit).near target ht)
    rw [show B.shapeAt A1.size = σ by rw [hsplit, Trace.shapeAt_size]]
    exact hnear.2
  · intro offset i target hi ht
    obtain ⟨A1, A2, σ, hsplit, rfl⟩ := hat hi
    rw [show B.shapeAt A1.size = σ by rw [hsplit, Trace.shapeAt_size]]
    exact hlands ((hfine hsplit).far target ht)
  · intro offset distance hi
    obtain ⟨A1, A2, σ, hsplit, rfl⟩ := hat hi
    exact (hfine hsplit).back distance rfl

end

end Mudscript
