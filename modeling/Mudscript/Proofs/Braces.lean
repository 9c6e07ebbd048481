import Mudscript.Proofs.Entries
import Mudscript.Proofs.Lexemes

/-!
# Braces in conversations

A conversation counts braces character by character, wherever they stand. A scanner sees more: of the braces in
a text some are tokens, and the others are in comments and in text literals. So a line is kept as long as more braces
are opened than closed in all of the text, as far as 32 bits can count them (`Repl.waits_iff`), and that differs from
what the tokens say just as far as the braces that are hidden do not match: `"{"` alone is waited for.
-/

namespace Mudscript

open Text (joinLines)
open Repl (braces braces_append)

variable {cs text hidden : List Char} {kind : TokenKind} {tokens : List Token}

/-- What is no code in the text of a token. -/
def TokenKind.hides (text : List Char) : TokenKind → List Char
  | .text _ => text
  | _ => []

/-- A text, its tokens with the end of the text, and the rest of it: the gaps between tokens, and the text literals. -/
inductive Hides : List Char → List Token → List Char → Prop
  | done {gap line} : IsGap [] gap → Hides gap [.endOfText line] gap
  | token {gap rest hidden t tokens} :
      IsLongestGap gap (t.lexeme.toList ++ rest) → IsToken t.lexeme.toList rest t.kind → Hides rest tokens hidden →
      Hides (gap ++ (t.lexeme.toList ++ rest)) (t :: tokens) (gap ++ (t.kind.hides t.lexeme.toList ++ hidden))

theorem Cut.hides {cut : List (TokenKind × String)} (h : Cut cs cut) {line : Nat}
    (htokens : tokens.map (fun t => (t.kind, t.lexeme)) = cut) :
      ∃ hidden, Hides cs (tokens ++ [.endOfText line]) hidden := by
  induction h generalizing tokens with
  | @done gap hgap =>
    obtain rfl := List.map_eq_nil_iff.mp htokens
    exact ⟨gap, .done hgap⟩
  | @token gap text _ _ _ hgap _ _ htoken _ ih =>
    obtain ⟨t, tokens, rfl, ht, hrest⟩ := List.map_eq_cons_iff.mp htokens
    obtain ⟨rfl, hlexeme⟩ := Prod.mk.inj ht
    obtain rfl : t.lexeme.toList = text := by rw [hlexeme, String.toList_ofList]
    obtain ⟨hidden, hhidden⟩ := ih hrest
    exact ⟨_, .token hgap htoken hhidden⟩

theorem Tokens.hides {source : String} (h : (ofSource source).strict = .ok tokens) :
    ∃ hidden, Hides source.toList tokens hidden := by
  obtain ⟨before, -, rfl⟩ := strict_eq_ok h
  exact (cut_iff.mpr ⟨_, h, List.map_append⟩).hides rfl

/-- The braces among tokens, the opening ones less the closing ones. -/
def tokenBraces (tokens : List Token) : Int :=
  tokens.countP (·.kind = .symbol .leftBrace) - tokens.countP (·.kind = .symbol .rightBrace)

/-- The braces in the text of a token are what it is and what it hides. -/
theorem Spells.braces_eq {t : Token} (h : Spells text t.kind) :
    braces text = tokenBraces [t] + braces (t.kind.hides text) := by
  simp only [tokenBraces, List.countP_singleton]
  obtain ⟨s, rfl, hkind⟩ | ⟨spelled, value, -, -, hkind⟩ | ⟨hsymbol, htext, hplain⟩ := h.plain
  · rw [hkind]
    cases s <;> decide
  · simp [hkind, TokenKind.hides]
  · have hnone : text.count '\x7b' = 0 ∧ text.count '\x7d' = 0 :=
      ⟨List.count_eq_zero.mpr fun hmem => absurd (hplain _ hmem) (by decide),
        List.count_eq_zero.mpr fun hmem => absurd (hplain _ hmem) (by decide)⟩
    have hhides : t.kind.hides text = [] := by
      unfold TokenKind.hides
      split
      · exact absurd ‹_› (htext _)
      · rfl
    simp [hhides, hsymbol, braces, hnone]

theorem Hides.braces_eq (h : Hides cs tokens hidden) : braces cs = tokenBraces tokens + braces hidden := by
  induction h with
  | @done gap => exact (Int.zero_add _).symm
  | @token gap rest hidden t tokens _ htoken _ ih =>
    have hcons : tokenBraces (t :: tokens) = tokenBraces [t] + tokenBraces tokens := by
      simp only [tokenBraces, List.countP_cons, List.countP_nil]
      omega
    simp only [braces_append, htoken.spells.braces_eq, ih, hcons]
    omega

/-- Whatever was typed into a new conversation, the next line is kept just when braces count as open in the text since
the last entry, as tokens and in what is hidden between and inside of them. The count has 32 bits: as long as they are
enough, braces count as open just when more are opened than closed. -/
theorem Repl.waits_iff (machine : Machine) (history : List String) (acts : List Act) :
    ∃ events r, run { machine, history } acts = (events, r) ∧
      ∀ line text, text = joinLines (unfinished events ++ [line]) →
      ∀ tokens, (Tokens.ofSource text).strict = .ok tokens → ∃ hidden, Hides text.toList tokens hidden ∧
        ((r.feed line).1 = none ↔ 0 < (tokenBraces tokens + braces hidden).bmod (2 ^ 32)) ∧
        (tokenBraces tokens + braces hidden ∈ Set.Ico (-2 ^ 31) (2 ^ 31) →
          ((r.feed line).1 = none ↔ tokens.countP (·.kind = .symbol .rightBrace) + hidden.count '\x7d'
            < tokens.countP (·.kind = .symbol .leftBrace) + hidden.count '\x7b')) := by
  obtain ⟨events, r, hrun⟩ : ∃ events r, run { machine, history } acts = (events, r) := ⟨_, _, rfl⟩
  have h : Buffers r.buffer (unfinished events) := by
    have hbuffers := run_buffers (r := { machine, history }) buffers_nil acts
    rwa [hrun] at hbuffers
  refine ⟨events, r, hrun, ?_⟩
  rintro line text rfl tokens htokens
  obtain ⟨hidden, hhides⟩ := Tokens.hides htokens
  have hnone : (r.feed line).1 = none ↔ 0 < (tokenBraces tokens + braces hidden).bmod (2 ^ 32) := by
    rw [← hhides.braces_eq, ← openBraces_eq]
    exact h.feed_eq_none_iff line
  refine ⟨hidden, hhides, hnone, fun hfits => hnone.trans ((bmod_pos_iff hfits).trans ?_)⟩
  rw [tokenBraces, braces]
  omega

/-- A brace in a text literal is waited for, and no token is a brace. -/
theorem Repl.waits_in_literal : (EntryBuffer.feed {} "\"\x7b\"").1 = none ∧
    (Tokens.ofSource "\"\x7b\"").strict = .ok [⟨.text "\x7b", "\"\x7b\"", 1⟩, .endOfText 1] := ⟨rfl, by cbv⟩

end Mudscript
