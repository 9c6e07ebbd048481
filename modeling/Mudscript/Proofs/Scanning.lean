import Mathlib
import Mudscript.Token.Scan

/-!
# What lies between tokens

`IsGap rest text` says what may lie between two tokens: blanks, comments to the end of the line and block
comments, with `rest` behind them. Reading a gap leaves what is behind it (`IsGap.skipGap_eq`), and in
front of every text there is a gap that cannot be continued (`exists_gap`). What one reading yields is put
together from the two (`Cursor.next_cases`): it reads the gap, and then what stands behind it.

The line of a cursor grows by the newlines in the gap, and only there.
-/

namespace Mudscript

open Cursor (Gap skipGap lexeme)
open List

/-- The text of a block comment behind an opening, with the given number of comments open, up to where none is.
It is read two characters at a time. The count wraps, so a comment also ends at the opening that makes 2 ^ 31 of
them. -/
inductive Comment : Int32 → List Char → Prop
  | closed {depth} : ¬ 0 < depth → Comment depth []
  | close {depth text} : 0 < depth → Comment (depth - 1) text → Comment depth ('*' :: '/' :: text)
  | open_ {depth text} : 0 < depth → Comment (depth + 1) text → Comment depth ('/' :: '*' :: text)
  | other {depth c text} : 0 < depth → ¬ (c = '*' ∧ text.head? = some '/') →
      ¬ (c = '/' ∧ text.head? = some '*') → Comment depth text → Comment depth (c :: text)

/-- Text between tokens, with `rest` behind it. -/
inductive IsGap (rest : List Char) : List Char → Prop
  | nil : IsGap rest []
  | blank {c text} : c = ' ' ∨ c = '\t' ∨ c = '\r' ∨ c = '\n' → IsGap rest text → IsGap rest (c :: text)
  | line {comment text} : '\n' ∉ comment → IsGap rest text → IsGap rest ('/' :: '/' :: (comment ++ '\n' :: text))
  | lastLine {comment} : '\n' ∉ comment → rest = [] → IsGap rest ('/' :: '/' :: comment)
  | block {comment text} : Comment 1 comment → IsGap rest text → IsGap rest ('/' :: '*' :: (comment ++ text))

variable {rest text : List Char} {line : Nat}

/-! ### Reading a gap -/

theorem skipGap_lineComment {comment : List Char} (h : '\n' ∉ comment) (line : Nat) (text : List Char) :
    skipGap .lineComment line (comment ++ '\n' :: text) = skipGap .blank (line + 1) text := by
  induction comment with
  | nil => simp [skipGap]
  | cons c comment ih =>
    rw [mem_cons, not_or] at h
    rw [cons_append, skipGap, if_neg (Ne.symm h.1), ih h.2]

theorem skipGap_lastLine {comment : List Char} (h : '\n' ∉ comment) (line : Nat) :
    skipGap .lineComment line comment = ⟨⟨[], line⟩, none⟩ := by
  induction comment with
  | nil => rfl
  | cons c comment ih =>
    rw [mem_cons, not_or] at h
    rw [skipGap, if_neg (Ne.symm h.1), ih h.2]

theorem skipGap_other {depth : Int32} {openedOn : Nat} {c : Char} (hclose : ¬ (c = '*' ∧ text.head? = some '/'))
    (hopen : ¬ (c = '/' ∧ text.head? = some '*')) (line : Nat) : skipGap (.blockComment depth openedOn) line (c :: text)
      = skipGap (.blockComment depth openedOn) (line + [c].count '\n') text := by
  rw [skipGap]
  · by_cases hc : c = '\n' <;> simp [hc]
  · rintro rest rfl rfl
    exact hclose ⟨rfl, rfl⟩
  · rintro rest rfl rfl
    exact hopen ⟨rfl, rfl⟩

theorem Comment.head?_append {depth : Int32} (h : Comment depth text) (hdepth : 0 < depth) (rest : List Char) :
    (text ++ rest).head? = text.head? := by
  cases h with
  | closed hclosed => exact absurd hdepth hclosed
  | _ => rfl

theorem Comment.skipGap_eq {depth : Int32} (h : Comment depth text) (openedOn line : Nat) (rest : List Char) :
    skipGap (.block depth openedOn) line (text ++ rest) = skipGap .blank (line + text.count '\n') rest := by
  induction h generalizing line with
  | closed hclosed => rw [Gap.block, if_neg hclosed]; rfl
  | close hdepth _ ih =>
    rw [Gap.block, if_pos hdepth]
    simp only [cons_append, skipGap, ih, count_cons]
    simp
  | open_ hdepth _ ih =>
    rw [Gap.block, if_pos hdepth]
    simp only [cons_append, skipGap, ih, count_cons]
    simp
  | @other _ c text hdepth hclose hopen hcomment ih =>
    rw [Gap.block, if_pos hdepth] at ih ⊢
    rw [← hcomment.head?_append hdepth rest] at hclose hopen
    rw [cons_append, skipGap_other hclose hopen, ih, Nat.add_assoc, ← count_append, singleton_append]

theorem IsGap.skipGap_eq (h : IsGap rest text) (line : Nat) :
    skipGap .blank line (text ++ rest) = skipGap .blank (line + text.count '\n') rest := by
  induction h generalizing line with
  | nil => rfl
  | blank hc _ ih =>
    obtain rfl | rfl | rfl | rfl := hc <;> rw [cons_append, Cursor.skipGap.eq_def] <;>
      simp [ih, Nat.add_assoc, Nat.add_comm 1]
  | line hcomment _ ih =>
    have hcount := count_eq_zero.mpr hcomment
    simp only [cons_append, append_assoc, skipGap, skipGap_lineComment hcomment, ih, count_append,
      count_cons, hcount]
    simp [Nat.add_assoc, Nat.add_comm 1]
  | lastLine hcomment hrest =>
    subst hrest
    have hcount := count_eq_zero.mpr hcomment
    simp [skipGap, skipGap_lastLine hcomment, hcount]
  | block hcomment _ ih =>
    simp only [cons_append, append_assoc, skipGap, hcomment.skipGap_eq, ih, count_append,
      count_cons]
    simp [Nat.add_assoc]

/-! ### Where a gap ends -/

/-- A block comment is closed, or goes on to the end of the text. -/
theorem comment_cases (depth : Int32) (cs : List Char) :
    (∃ text rest, Comment depth text ∧ cs = text ++ rest) ∨ ∀ openedOn line,
      skipGap (.block depth openedOn) line cs = ⟨⟨[], line + cs.count '\n'⟩, some openedOn⟩ := by
  by_cases hdepth : 0 < depth
  · simp only [Gap.block, if_pos hdepth]
    match cs with
    | [] => exact .inr fun _ _ => rfl
    | c :: cs =>
      by_cases hclose : c = '*' ∧ cs.head? = some '/'
      · obtain ⟨rfl, hhead⟩ := hclose
        obtain ⟨cs, rfl⟩ := List.head?_eq_some_iff.mp hhead
        refine (comment_cases (depth - 1) cs).imp ?_ fun h openedOn line => ?_
        · rintro ⟨text, rest, htext, rfl⟩
          exact ⟨_, rest, .close hdepth htext, rfl⟩
        · simp [skipGap, h]
      by_cases hopen : c = '/' ∧ cs.head? = some '*'
      · obtain ⟨rfl, hhead⟩ := hopen
        obtain ⟨cs, rfl⟩ := List.head?_eq_some_iff.mp hhead
        refine (comment_cases (depth + 1) cs).imp ?_ fun h openedOn line => ?_
        · rintro ⟨text, rest, htext, rfl⟩
          exact ⟨_, rest, .open_ hdepth htext, rfl⟩
        · simp [skipGap, h]
      · refine (comment_cases depth cs).imp ?_ fun h openedOn line => ?_
        · rintro ⟨text, rest, htext, rfl⟩
          rw [htext.head?_append hdepth] at hclose hopen
          exact ⟨_, rest, .other hdepth hclose hopen htext, rfl⟩
        · simp only [Gap.block, if_pos hdepth] at h
          rw [skipGap_other hclose hopen, h, Nat.add_assoc, ← count_append, singleton_append]
  · exact .inl ⟨[], cs, .closed hdepth, rfl⟩
termination_by cs.length

structure EndsGap (cs : List Char) : Prop where
  blank : ∀ c ∈ cs.head?, ¬ (c = ' ' ∨ c = '\t' ∨ c = '\r' ∨ c = '\n')
  line : ¬ ['/', '/'] <+: cs
  block : ¬ ['/', '*'] <+: cs

theorem EndsGap.skipGap_eq {cs : List Char} (h : EndsGap cs) (line : Nat) :
    skipGap .blank line cs = ⟨⟨cs, line⟩, none⟩ := by
  cases cs with
  | nil => rfl
  | cons c cs =>
    have hblank := h.blank c rfl
    simp only [not_or] at hblank
    rw [Cursor.skipGap.eq_def]
    dsimp only
    rw [if_neg (by simp [hblank]), if_neg hblank.2.2.2]
    split
    · rename_i hc
      subst hc
      split
      · exact absurd ⟨_, rfl⟩ h.line
      · exact absurd ⟨_, rfl⟩ h.block
      · rfl
    · rfl

/-- The text is a block comment that is never closed. -/
def Unclosed (cs : List Char) : Prop :=
  (∃ body, cs = '/' :: '*' :: body) ∧
    ∀ line, skipGap .blank line cs = ⟨⟨[], line + cs.count '\n'⟩, some line⟩

theorem endsGap_nil : EndsGap [] := ⟨nofun, nofun, nofun⟩

/-- In front of every text there is a gap that cannot be continued. -/
theorem exists_gap (cs : List Char) :
    ∃ text rest, cs = text ++ rest ∧ IsGap rest text ∧ (EndsGap rest ∨ Unclosed rest) := by
  match cs with
  | [] => exact ⟨[], [], rfl, .nil, .inl endsGap_nil⟩
  | c :: cs =>
    by_cases hblank : c = ' ' ∨ c = '\t' ∨ c = '\r' ∨ c = '\n'
    · obtain ⟨text, rest, rfl, hgap, hends⟩ := exists_gap cs
      exact ⟨c :: text, rest, rfl, .blank hblank hgap, hends⟩
    by_cases hopen : c = '/' ∧ (cs.head? = some '/' ∨ cs.head? = some '*')
    · obtain ⟨rfl, hhead | hhead⟩ := hopen <;> obtain ⟨cs, rfl⟩ := List.head?_eq_some_iff.mp hhead
      · by_cases hnewline : '\n' ∈ cs
        · obtain ⟨comment, cs', rfl, hcomment⟩ := eq_append_cons_of_mem hnewline
          obtain ⟨text, rest, rfl, hgap, hends⟩ := exists_gap cs'
          exact ⟨_, rest, by simp, .line hcomment hgap, hends⟩
        · exact ⟨_, [], (append_nil _).symm, .lastLine hnewline rfl, .inl endsGap_nil⟩
      · rcases comment_cases 1 cs with ⟨comment, cs', hcomment, rfl⟩ | hunclosed
        · obtain ⟨text, rest, rfl, hgap, hends⟩ := exists_gap cs'
          exact ⟨_, rest, by simp, .block hcomment hgap, hends⟩
        · refine ⟨[], _, rfl, .nil, .inr ⟨⟨cs, rfl⟩, fun line => ?_⟩⟩
          simp [skipGap, hunclosed]
    · refine ⟨[], _, rfl, .nil, .inl ⟨?_, ?_, ?_⟩⟩
      · rintro _ ⟨⟩
        exact hblank
      · rintro ⟨body, hbody⟩
        cases hbody
        exact hopen ⟨rfl, .inl rfl⟩
      · rintro ⟨body, hbody⟩
        cases hbody
        exact hopen ⟨rfl, .inr rfl⟩
termination_by cs.length
decreasing_by all_goals simp_all <;> omega

/-! ### One reading -/

theorem IsGap.next_finished (h : IsGap [] text) (line : Nat) :
    Cursor.next ⟨text, line⟩ = .finished (line + text.count '\n') := by
  have hskip := h.skipGap_eq line
  rw [append_nil, endsGap_nil.skipGap_eq] at hskip
  simp only [Cursor.next, hskip]

theorem IsGap.next_item {c : Char} {ahead : List Char} (h : IsGap (c :: ahead) text) (hends : EndsGap (c :: ahead))
    (line : Nat) : Cursor.next ⟨text ++ c :: ahead, line⟩ = .item (lexeme (line + text.count '\n') c ahead).1
      ⟨(lexeme (line + text.count '\n') c ahead).2, line + text.count '\n'⟩ := by
  have hskip := h.skipGap_eq line
  rw [hends.skipGap_eq] at hskip
  simp only [Cursor.next, hskip]

/-- What one reading yields: the end of the text, a block comment that is never closed, or what starts with
the first character behind the gap. -/
theorem Cursor.next_cases (cs : List Char) (line : Nat) : ∃ gap rest, cs = gap ++ rest ∧ IsGap rest gap ∧
      ((rest = [] ∧ Cursor.next ⟨cs, line⟩ = .finished (line + gap.count '\n')) ∨
        (Unclosed rest ∧ Cursor.next ⟨cs, line⟩ = .item (.error ⟨.unterminatedComment, line + gap.count '\n'⟩)
          ⟨[], line + cs.count '\n'⟩) ∨
        ∃ c ahead, rest = c :: ahead ∧ EndsGap rest ∧ Cursor.next ⟨cs, line⟩
          = .item (lexeme (line + gap.count '\n') c ahead).1
            ⟨(lexeme (line + gap.count '\n') c ahead).2, line + gap.count '\n'⟩) := by
  obtain ⟨gap, rest, rfl, hgap, hends⟩ := exists_gap cs
  refine ⟨gap, rest, rfl, hgap, ?_⟩
  rcases hends with hends | hunclosed
  · cases rest with
    | nil =>
      refine .inl ⟨rfl, ?_⟩
      rw [append_nil]
      exact hgap.next_finished line
    | cons c ahead => exact .inr (.inr ⟨c, ahead, rfl, hends, hgap.next_item hends line⟩)
  · have hskip := hgap.skipGap_eq line
    rw [hunclosed.2, Nat.add_assoc, ← count_append] at hskip
    exact .inr (.inl ⟨hunclosed, by simp only [next, hskip]⟩)

/-- Reading to the end, one reading after the other. -/
inductive Cursor.Reads : Cursor → List Lexed → Nat → Prop
  | finished {cursor line} : cursor.next = .finished line → Reads cursor [] line
  | item {cursor after lexed items line} :
      cursor.next = .item lexed after → Reads after items line → Reads cursor (lexed :: items) line

theorem Cursor.readAll_reads (cursor : Cursor) (read : Array Lexed) :
    ∃ items, cursor.Reads items (cursor.readAll read).2 ∧
      (cursor.readAll read).1.toList = read.toList ++ items := by
  fun_induction readAll cursor read with
  | case1 cursor read line hnext => exact ⟨[], .finished hnext, (append_nil _).symm⟩
  | case2 cursor read lexed after hnext ih =>
    obtain ⟨items, hreads, hitems⟩ := ih
    exact ⟨lexed :: items, .item hnext hreads, by simp [hitems]⟩

theorem Tokens.ofSource_reads (source : String) :
    (Cursor.start source).Reads (Tokens.ofSource source).items (Tokens.ofSource source).endLine := by
  obtain ⟨items, hreads, hitems⟩ := (Cursor.start source).readAll_reads #[]
  rw [nil_append] at hitems
  rwa [← hitems] at hreads

/-! ### Lines -/

def lexedLine : Lexed → Nat
  | .ok t => t.line
  | .error e => e.line

theorem Cursor.lexeme_line (line : Nat) (c : Char) (ahead : List Char) : lexedLine (lexeme line c ahead).1 = line := by
  unfold lexeme
  repeat' split
  all_goals rfl

/-- Lines that come one after the other, up to the end of the text. -/
def LinesFrom (line endLine : Nat) : List Lexed → Prop
  | [] => line ≤ endLine
  | lexed :: items => line ≤ lexedLine lexed ∧ LinesFrom (lexedLine lexed) endLine items

theorem LinesFrom.mono {line line' endLine : Nat} {items : List Lexed} (h : LinesFrom line endLine items)
    (hle : line' ≤ line) : LinesFrom line' endLine items := by
  cases items with
  | nil => exact Nat.le_trans hle h
  | cons lexed items => exact ⟨Nat.le_trans hle h.1, h.2⟩

theorem Cursor.Reads.linesFrom {cursor : Cursor} {items : List Lexed} {endLine : Nat}
    (h : cursor.Reads items endLine) : LinesFrom cursor.line endLine items := by
  induction h with
  | @finished cursor line hnext =>
    obtain ⟨gap, rest, -, -, ⟨-, h⟩ | ⟨-, h⟩ | ⟨c, ahead, -, -, h⟩⟩ := next_cases cursor.ahead cursor.line
    · cases hnext.symm.trans h
      exact Nat.le_add_right _ _
    · cases hnext.symm.trans h
    · cases hnext.symm.trans h
  | @item cursor after lexed items line hnext _ ih =>
    obtain ⟨gap, rest, hcs, -, ⟨-, h⟩ | ⟨-, h⟩ | ⟨c, ahead, -, -, h⟩⟩ := next_cases cursor.ahead cursor.line
    · cases hnext.symm.trans h
    · cases hnext.symm.trans h
      refine ⟨Nat.le_add_right _ _, ih.mono (Nat.add_le_add_left ?_ _)⟩
      rw [hcs, count_append]
      exact Nat.le_add_right _ _
    · cases hnext.symm.trans h
      refine ⟨?_, ih.mono (Nat.le_of_eq (lexeme_line _ _ _))⟩
      rw [lexeme_line]
      exact Nat.le_add_right _ _

end Mudscript
