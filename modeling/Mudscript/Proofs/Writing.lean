import Mudscript.Proofs.Lexemes

/-!
# Writing tokens

Two ways to write what the scanner reads back. Every text is the value of a literal, wherever the literal stands
(`Cursor.next_literal`). And the tokens of a text can be written with single spaces between them, whatever stood
between them before (`Tokens.strict_spaced`): behind a space or the end of the text no token can be longer than
the one that was written (`Spells.isToken`).
-/

namespace Mudscript

open Cursor (lexeme)
open List

variable {cut : List (TokenKind × String)}

variable {c : Char} {text rest spelled value : List Char} {kind : TokenKind}

/-! ### Texts as literals -/

def spelledChar : Char → List Char
  | '\\' => ['\\', '\\']
  | '"' => ['\\', '"']
  | '\n' => ['\\', 'n']
  | '\t' => ['\\', 't']
  | '\r' => ['\\', 'r']
  | c => [c]

def literal (s : String) : List Char := '"' :: (s.toList.flatMap spelledChar ++ ['"'])

private theorem quotedText_spelled (value : List Char) : QuotedText (value.flatMap spelledChar) value := by
  induction value with
  | nil => exact .nil
  | cons c value ih =>
    rw [flatMap_cons, spelledChar.eq_def]
    split
    iterate 5 exact .escaped (by decide) ih
    exact .plain ‹_› ‹_› ‹_› ih

/-- The scanner has read the text `front`, in whole readings, and stands behind it. -/
inductive Cursor.Passes (start : Cursor) : List Char → Cursor → Prop
  | refl : Passes start [] start
  | item {front text cursor after lexed} : Passes start front cursor →
      cursor.next = .item lexed after → cursor.ahead = text ++ after.ahead → Passes start (front ++ text) after

theorem Cursor.Passes.ahead_eq {start cursor : Cursor} {front : List Char} (h : start.Passes front cursor) :
    start.ahead = front ++ cursor.ahead := by
  induction h with
  | refl => rfl
  | item _ _ htext ih => rw [ih, htext, append_assoc]

/-- Where the next token would start, the literal of a text is read as a token with that text as its value, and
the scanner stands right behind the closing quote. -/
theorem Cursor.next_literal {source : String} {front gap after : List Char} {cursor : Cursor} (s : String)
    (hfront : (start source).Passes front cursor) (hsource : source.toList = front ++ gap ++ literal s ++ after)
    (hgap : IsGap (literal s ++ after) gap) : ∃ line, line = cursor.line + gap.count '\n' ∧
      cursor.next = .item (.ok ⟨.text s, String.ofList (literal s), line⟩) ⟨after, line⟩ := by
  have hcons : literal s ++ after = '"' :: (s.toList.flatMap spelledChar ++ '"' :: after) := by simp [literal]
  have hahead : cursor.ahead = gap ++ (literal s ++ after) := by
    have hsplit := hfront.ahead_eq.symm.trans hsource
    simpa only [append_assoc, append_cancel_left_eq] using hsplit
  have hlexeme (line : Nat) : lexeme line '"' (s.toList.flatMap spelledChar ++ '"' :: after)
      = (.ok ⟨.text s, String.ofList (literal s), line⟩, after) := by
    simp [lexeme, symbol?_eq_none (.inl rfl), (quotedText_spelled s.toList).quotation_eq, literal]
  rw [hcons] at hgap hahead
  have hnext := hgap.next_item ⟨by simp, by simp, by simp⟩ cursor.line
  rw [hlexeme, ← hahead] at hnext
  exact ⟨_, rfl, hnext⟩

/-- A quote right behind the opening one, and a backslash right in front of the closing one. -/
theorem Cursor.next_literal_escaped : (start "f \"\\\"a\\\\\"b").Passes ['f'] ⟨" \"\\\"a\\\\\"b".toList, 1⟩ ∧
      Cursor.next ⟨" \"\\\"a\\\\\"b".toList, 1⟩
        = .item (.ok ⟨.text "\"a\\", "\"\\\"a\\\\\"", 1⟩) ⟨['b'], 1⟩ := by
  have hfront : (start "f \"\\\"a\\\\\"b").Passes ['f'] ⟨" \"\\\"a\\\\\"b".toList, 1⟩ := by
    have hnext : (start "f \"\\\"a\\\\\"b").next = .item (.ok ⟨.name "f", "f", 1⟩) ⟨" \"\\\"a\\\\\"b".toList, 1⟩ := by
      cbv
    exact .item .refl hnext (by cbv)
  obtain ⟨line, hline, hnext⟩ := @next_literal _ ['f'] [' '] ['b'] _ "\"a\\" hfront (by cbv)
    (.blank (.inl rfl) .nil)
  have hone : line = 1 := hline.trans (by decide)
  rw [hnext, hone]
  exact ⟨hfront, by cbv⟩

/-! ### Tokens with spaces between them -/

theorem IsDigits.ne_space {ds : List Char} (h : IsDigits ds) : ' ' ∉ ds ∧ ∃ d more, ds = d :: more ∧ d.isDigit := by
  obtain ⟨d, more, rfl, hd, hmore⟩ := h
  refine ⟨?_, d, more, rfl, hd⟩
  rintro (_ | ⟨_, hmem⟩)
  · cases hd
  · cases hmore _ hmem

/-- How a token starts: not with a blank, with a slash only if it is a slash or its assignment, and with a quote
only if it is a literal. -/
theorem Spells.head_cases (h : Spells (c :: text) kind) : ¬ (c = ' ' ∨ c = '\t' ∨ c = '\r' ∨ c = '\n') ∧
    (c = '/' → text = [] ∨ text = ['=']) ∧
    (c = '"' → ∃ spelled value, text = spelled ++ ['"'] ∧ QuotedText spelled value) := by
  have hdigit (hc : c.isDigit = true) : ¬ (c = ' ' ∨ c = '\t' ∨ c = '\r' ∨ c = '\n') ∧ c ≠ '/' ∧ c ≠ '"' := by
    refine ⟨?_, ?_, ?_⟩
    · rintro (rfl | rfl | rfl | rfl) <;> cases hc
    · rintro rfl
      cases hc
    · rintro rfl
      cases hc
  generalize hcs : c :: text = cs at h
  cases h with
  | symbol s =>
    cases s <;> obtain ⟨rfl, rfl⟩ : c = _ ∧ text = _ := by simpa [Symbol.spelling] using hcs
    all_goals simp
  | text hspelled =>
    obtain ⟨rfl, rfl⟩ := List.cons.inj hcs
    exact ⟨by decide, nofun, fun _ => ⟨_, _, rfl, hspelled⟩⟩
  | whole hds =>
    obtain ⟨d, more, rfl, hd, -⟩ := hds
    obtain ⟨rfl, rfl⟩ := List.cons.inj hcs
    exact ⟨(hdigit hd).1, fun hc => absurd hc (hdigit hd).2.1, fun hc => absurd hc (hdigit hd).2.2⟩
  | fraction hds _ =>
    obtain ⟨d, more, rfl, hd, -⟩ := hds
    obtain ⟨rfl, rfl⟩ := List.cons.inj hcs
    exact ⟨(hdigit hd).1, fun hc => absurd hc (hdigit hd).2.1, fun hc => absurd hc (hdigit hd).2.2⟩
  | word hstart _ _ =>
    obtain ⟨rfl, rfl⟩ := List.cons.inj hcs
    refine ⟨?_, ?_, ?_⟩
    · rintro (rfl | rfl | rfl | rfl) <;> cases hstart
    · rintro rfl
      cases hstart
    · rintro rfl
      cases hstart

theorem Spells.of_space (h : Spells text kind) (hspace : ' ' ∈ text) :
    ∃ spelled value, text = '"' :: (spelled ++ ['"']) ∧ QuotedText spelled value := by
  cases h with
  | symbol s => exact absurd hspace (by cases s <;> decide)
  | text hspelled => exact ⟨_, _, rfl, hspelled⟩
  | whole hds => exact absurd hspace hds.ne_space.1
  | fraction hds hes => simp [hds.ne_space.1, hes.ne_space.1] at hspace
  | word hstart hcontinue _ =>
    rcases mem_cons.mp hspace with rfl | hmem
    · cases hstart
    · cases hcontinue _ hmem

def Separated (rest : List Char) : Prop := ∀ c ∈ rest.head?, c = ' '

theorem Spells.isToken (h : Spells text kind) (hrest : Separated rest) : IsToken text rest kind := by
  refine ⟨h, fun {t r k} heq ht => Nat.le_of_not_lt fun hlt => ?_⟩
  -- A longer token would have the space in it, so both would be literals.
  obtain ⟨more, rfl⟩ : text <+: t := prefix_of_prefix_length_le ⟨rest, rfl⟩ ⟨r, heq.symm⟩ (Nat.le_of_lt hlt)
  rw [append_assoc, append_cancel_left_eq] at heq
  cases more with
  | nil => simp at hlt
  | cons d more =>
    subst heq
    obtain rfl : d = ' ' := hrest d rfl
    obtain ⟨spelled, value, hliteral, hspelled⟩ := ht.of_space (by simp)
    cases text with
    | nil => exact h.ne_nil rfl
    | cons c text =>
      obtain ⟨rfl, hbody⟩ := List.cons.inj hliteral
      obtain ⟨spelled', value', rfl, hspelled'⟩ := h.head_cases.2.2 rfl
      have hclosed := hspelled'.quotation_eq (' ' :: more)
      rw [show spelled' ++ '"' :: ' ' :: more = spelled ++ ['"'] by simpa using hbody, hspelled.quotation_eq,
        Cursor.Quotation.closed.injEq] at hclosed
      exact nomatch hclosed.2.2

theorem Spells.endsGap (h : Spells text kind) (hrest : Separated rest) : EndsGap (text ++ rest) := by
  cases text with
  | nil => exact absurd rfl h.ne_nil
  | cons c text =>
    obtain ⟨hblank, hslash, -⟩ := h.head_cases
    have hsecond (d : Char) (hd : d = '/' ∨ d = '*') : ¬ ['/', d] <+: c :: text ++ rest := by
      rintro ⟨more, hprefix⟩
      obtain ⟨rfl, hmore⟩ : '/' = c ∧ d :: more = text ++ rest := by simpa using hprefix
      rcases hslash rfl with rfl | rfl
      · have hspace : d = ' ' := hrest d (by simp_all [eq_comm])
        exact absurd (hspace ▸ hd) (by decide)
      · have hequal : d = '=' := (List.cons.inj hmore).1
        exact absurd (hequal ▸ hd) (by decide)
    exact ⟨fun _ hd => Option.some.inj hd ▸ hblank, hsecond _ (.inl rfl), hsecond _ (.inr rfl)⟩

theorem Cut.spells {cs : List Char} (h : Cut cs cut) : ∀ piece ∈ cut, Spells piece.2.toList piece.1 := by
  induction h with
  | done => exact nofun
  | token _ _ _ htoken _ ih =>
    refine forall_mem_cons.mpr ⟨?_, ih⟩
    rw [String.toList_ofList]
    exact htoken.spells

/-- Tokens with single spaces between them are a cut of their own, also behind a space. -/
theorem cut_spaced (h : ∀ piece ∈ cut, Spells piece.2.toList piece.1)
    {gap : List Char} (hgap : gap = [] ∨ gap = [' ']) : Cut (gap ++ (" ".intercalate (cut.map (·.2))).toList) cut := by
  have isGap (rest : List Char) : IsGap rest gap := by
    rcases hgap with rfl | rfl
    · exact .nil
    · exact .blank (.inl rfl) .nil
  induction cut generalizing gap with
  | nil => exact .done (by simpa using isGap [])
  | cons piece cut ih =>
    obtain ⟨hspells, hcut⟩ := forall_mem_cons.mp h
    -- What follows the token starts with the space in front of the next one.
    obtain ⟨rest, htext, hrest, hrests⟩ : ∃ rest, (" ".intercalate ((piece :: cut).map (·.2))).toList
        = piece.2.toList ++ rest ∧ Separated rest ∧ Cut rest cut := by
      cases cut with
      | nil => exact ⟨[], by simp, nofun, .done .nil⟩
      | cons next cut =>
        refine ⟨_, ?_, ?_, ih hcut (.inr rfl) fun _ => .blank (.inl rfl) .nil⟩
        · simp
        · exact fun c hc => (Option.some.inj hc).symm
    have hends := hspells.endsGap hrest
    have hlongest := (isLongestGap_iff hends.block).mpr ⟨isGap _, hends⟩
    rw [htext]
    simpa using Cut.token hlongest hends.line hends.block (hspells.isToken hrest) hrests

/-- The tokens of a text, written with single spaces between them, are read as the same tokens again. -/
theorem Tokens.strict_spaced {source : String} {tokens : List Token} (h : (ofSource source).strict = .ok tokens) :
    ∃ tokens', (ofSource (" ".intercalate ((tokens.filter (·.kind ≠ .endOfText)).map (·.lexeme)))).strict
      = .ok tokens' ∧
      tokens'.map (fun t => (t.kind, t.lexeme)) = tokens.map fun t => (t.kind, t.lexeme) := by
  obtain ⟨before, hitems, rfl⟩ := strict_eq_ok h
  have hfilter : (before ++ [Token.endOfText (ofSource source).endLine]).filter (·.kind ≠ .endOfText) = before := by
    rw [filter_append, filter_eq_self.mpr]
    · exact append_nil _
    · intro t ht
      obtain ⟨text, hspells⟩ := (ofSource_reads source).spells (hitems ▸ mem_map_of_mem ht)
      exact decide_eq_true hspells.ne_endOfText
  have hcut : Cut source.toList (before.map fun t => (t.kind, t.lexeme)) := cut_iff.mpr ⟨_, h, map_append⟩
  have hspaced := cut_spaced hcut.spells (.inl rfl)
  rw [nil_append, cut_iff, map_map] at hspaced
  rw [hfilter, map_append]
  exact hspaced

theorem Tokens.strict_spaced_comment : (ofSource "x/*1*/=/").strict
      = .ok [⟨.name "x", "x", 1⟩, ⟨.symbol .equal, "=", 1⟩, ⟨.symbol .slash, "/", 1⟩, .endOfText 1] ∧
      ∃ tokens, (ofSource "x = /").strict = .ok tokens ∧ tokens.map (fun t => (t.kind, t.lexeme))
        = [(.name "x", "x"), (.symbol .equal, "="), (.symbol .slash, "/"), (.endOfText, "")] := by
  have h : (ofSource "x/*1*/=/").strict
      = .ok [⟨.name "x", "x", 1⟩, ⟨.symbol .equal, "=", 1⟩, ⟨.symbol .slash, "/", 1⟩, .endOfText 1] := by
    cbv
  exact ⟨h, strict_spaced h⟩

end Mudscript
