import Mudscript.Proofs.Scanning

/-!
# Lexemes

The lexical grammar. `Spells text kind` says which texts are tokens, and `Cut cs cut` that a text falls into
gaps and tokens, each the longest at its place. What the scanner reads at a place is the longest token there
if there is one (`lexeme_eq_ok_iff`), so a text scans without a fault just when it can be cut, and the tokens
are those of its one cut (`Tokens.strict_ok_iff_cut`).

The line of a token is one more than the newlines in front of it, as long as no newline was used up as the
character of an escape. Behind every fault of this kind the lines are short by one (`Tokens.lines_of_source`).
-/

namespace Mudscript

open Cursor (skipGap escape? quotation continuesNumber digitsValue digitCount number symbol? lexeme)
open List
open Text (startsName continuesName)

variable {c : Char} {ahead text rest spelled value : List Char} {kind : TokenKind} {line : Nat}

/-! ### The lexical grammar -/

/-- The text between the quotes of a text literal, and what it stands for. -/
inductive QuotedText : List Char → List Char → Prop
  | nil : QuotedText [] []
  | plain {c : Char} {spelled value : List Char} : c ≠ '"' → c ≠ '\\' → c ≠ '\n' → QuotedText spelled value →
      QuotedText (c :: spelled) (c :: value)
  | escaped {c meant spelled value} :
      (c, meant) ∈ [('n', '\n'), ('t', '\t'), ('r', '\r'), ('\\', '\\'), ('"', '"')] → QuotedText spelled value →
      QuotedText ('\\' :: c :: spelled) (meant :: value)

/-- What a word means: a reserved word, a type, or else a name. -/
inductive Means : String → TokenKind → Prop
  | keyword (k : Keyword) : Means k.spelling (.keyword k)
  | type (t : TypeName) : Means t.spelling (.type t)
  | name {word} : (∀ k : Keyword, k.spelling ≠ word) → (∀ t : TypeName, t.spelling ≠ word) → Means word (.name word)

/-- A digit, and digits and underscores behind it. -/
def IsDigits (cs : List Char) : Prop :=
  ∃ d more, cs = d :: more ∧ d.isDigit = true ∧ ∀ c ∈ more, continuesNumber c = true

inductive Spells : List Char → TokenKind → Prop
  | symbol (s : Symbol) : Spells s.spelling.toList (.symbol s)
  | text {spelled value : List Char} : QuotedText spelled value →
      Spells ('"' :: (spelled ++ ['"'])) (.text (String.ofList value))
  | whole {ds} : IsDigits ds → Spells ds (.number (.ofDecimal (digitsValue ds) 0))
  | fraction {ds es} : IsDigits ds → IsDigits es →
      Spells (ds ++ '.' :: es) (.number (.ofDecimal (digitsValue (ds ++ es)) (digitCount es)))
  | word {c cs kind} : startsName c = true →
      (∀ d ∈ cs, continuesName d = true) → Means (String.ofList (c :: cs)) kind → Spells (c :: cs) kind

/-- The longest token at the front of `text ++ rest`. -/
structure IsToken (text rest : List Char) (kind : TokenKind) : Prop where
  spells : Spells text kind
  longest : ∀ {t r : List Char} {k : TokenKind}, text ++ rest = t ++ r → Spells t k → t.length ≤ text.length

/-- The longest gap at the front of `gap ++ rest`. -/
structure IsLongestGap (gap rest : List Char) : Prop where
  isGap : IsGap rest gap
  longest : ∀ {g r : List Char}, gap ++ rest = g ++ r → IsGap r g → g.length ≤ gap.length

/-- A text cut into gaps and tokens, each the longest at its place. No token starts where a comment does. -/
inductive Cut : List Char → List (TokenKind × String) → Prop
  | done {gap} : IsGap [] gap → Cut gap []
  | token {gap text rest : List Char} {kind : TokenKind} {cut : List (TokenKind × String)} :
      IsLongestGap gap (text ++ rest) → ¬ ['/', '/'] <+: text ++ rest → ¬ ['/', '*'] <+: text ++ rest →
      IsToken text rest kind → Cut rest cut → Cut (gap ++ (text ++ rest)) ((kind, String.ofList text) :: cut)

/-! ### Text literals -/

theorem escape?_eq_some {meant : Char} : escape? c = some meant ↔
    (c, meant) ∈ [('n', '\n'), ('t', '\t'), ('r', '\r'), ('\\', '\\'), ('"', '"')] := by
  unfold escape?
  split <;> simp_all [eq_comm]

/-- In front of every text there is a literal, and something behind it that ends the literal. -/
theorem exists_literal (cs : List Char) : ∃ spelled value rest, cs = spelled ++ rest ∧ QuotedText spelled value ∧
    (rest = [] ∨ rest = ['\\'] ∨ (∃ more, rest = '"' :: more) ∨ (∃ more, rest = '\n' :: more) ∨
      ∃ c more, rest = '\\' :: c :: more ∧ escape? c = none) := by
  match cs with
  | [] => exact ⟨[], [], [], rfl, .nil, .inl rfl⟩
  | c :: cs =>
    by_cases hslash : c = '\\'
    · subst hslash
      cases cs with
      | nil => exact ⟨[], [], _, rfl, .nil, .inr (.inl rfl)⟩
      | cons c cs =>
        cases hmeant : escape? c with
        | none => exact ⟨[], [], _, rfl, .nil, .inr (.inr (.inr (.inr ⟨c, cs, rfl, hmeant⟩)))⟩
        | some meant =>
          obtain ⟨spelled, value, rest, rfl, hspelled, hrest⟩ := exists_literal cs
          exact ⟨_, _, rest, rfl, .escaped (escape?_eq_some.mp hmeant) hspelled, hrest⟩
    by_cases hquote : c = '"'
    · exact ⟨[], [], _, rfl, .nil, .inr (.inr (.inl ⟨cs, hquote ▸ rfl⟩))⟩
    by_cases hnewline : c = '\n'
    · exact ⟨[], [], _, rfl, .nil, .inr (.inr (.inr (.inl ⟨cs, hnewline ▸ rfl⟩)))⟩
    obtain ⟨spelled, value, rest, rfl, hspelled, hrest⟩ := exists_literal cs
    exact ⟨_, _, rest, rfl, .plain hquote hslash hnewline hspelled, hrest⟩
termination_by cs.length

theorem QuotedText.quotation_append (h : QuotedText spelled value) (before lexeme rest : List Char) :
    quotation before lexeme (spelled ++ rest)
      = quotation (value.reverse ++ before) (spelled.reverse ++ lexeme) rest := by
  induction h generalizing before lexeme with
  | nil => rfl
  | plain _ hslash hnewline _ ih => simp [quotation, hslash, hnewline, ih]
  | escaped hmeant _ ih => simp [quotation, escape?_eq_some.mpr hmeant, ih]

theorem QuotedText.quotation_eq (h : QuotedText spelled value) (rest : List Char) :
    quotation [] ['"'] (spelled ++ '"' :: rest) = .closed value.reverse ('"' :: (spelled.reverse ++ ['"'])) rest := by
  rw [h.quotation_append, append_nil]
  rfl

theorem QuotedText.not_mem (h : QuotedText spelled value) : '\n' ∉ spelled := by
  induction h with
  | nil => exact nofun
  | plain _ _ hc _ ih => simp [ih, Ne.symm hc]
  | escaped hc _ ih =>
    simp only [mem_cons, not_mem_nil, Prod.mk.injEq, or_false] at hc
    obtain ⟨rfl, -⟩ | ⟨rfl, -⟩ | ⟨rfl, -⟩ | ⟨rfl, -⟩ | ⟨rfl, -⟩ := hc <;> simp [ih]

/-! ### Symbols and words -/

theorem Symbol.spelling_cases (s : Symbol) : (∃ c, s.spelling.toList = [c] ∧ single? c = some s) ∨
    ∃ c d, s.spelling.toList = [c, d] ∧ pair? c d = some s := by
  cases s <;> first | exact .inl ⟨_, rfl, rfl⟩ | exact .inr ⟨_, _, rfl, rfl⟩

private theorem Symbol.single?_spelling {s : Symbol} (h : single? c = some s) : s.spelling.toList = [c] := by
  unfold single? at h
  split at h <;> cases h <;> rfl

theorem Symbol.pair?_spelling {d : Char} {s : Symbol} (h : pair? c d = some s) : s.spelling.toList = [c, d] := by
  unfold pair? at h
  split at h <;> cases h <;> rfl

private theorem symbol?_eq_some {s : Symbol} (h : symbol? c ahead = some (s, rest)) :
    c :: ahead = s.spelling.toList ++ rest := by
  unfold symbol? at h
  split at h
  · split at h
    · rename_i hpair
      cases h
      rw [Symbol.pair?_spelling hpair]
      rfl
    · obtain ⟨_, hs, h⟩ := Option.map_eq_some_iff.mp h
      cases h
      rw [Symbol.single?_spelling hs]
      rfl
  · obtain ⟨_, hs, h⟩ := Option.map_eq_some_iff.mp h
    cases h
    rw [Symbol.single?_spelling hs]
    rfl

theorem symbol?_eq_none (h : c = '"' ∨ c.isDigit = true ∨ startsName c = true) (ahead : List Char) :
    symbol? c ahead = none := by
  have hsingle : Symbol.single? c = none := by
    unfold Symbol.single?
    split <;> first | rfl | (revert h; decide)
  unfold symbol?
  split
  · rename_i d rest
    have hpair : Symbol.pair? c d = none := by
      unfold Symbol.pair?
      split <;> first | rfl | (revert h; decide)
    rw [hpair, hsingle]
    rfl
  · rw [hsingle]
    rfl

/-- Where a symbol is, the scanner reads it or a longer one. -/
theorem symbol?_of_spelling {s : Symbol} (h : c :: ahead = s.spelling.toList ++ rest) :
    ∃ s' rest', symbol? c ahead = some (s', rest') ∧
      s.spelling.toList.length ≤ s'.spelling.toList.length ∧ (s.spelling.toList = s'.spelling.toList → s = s') := by
  rcases s.spelling_cases with ⟨d, hs, hsingle⟩ | ⟨d, e, hs, hpair⟩ <;> rw [hs] at h ⊢ <;>
    obtain ⟨rfl, rfl⟩ := List.cons.inj h
  · match ahead with
    | [] => exact ⟨s, [], by simp [symbol?, hsingle], by simp [hs], fun _ => rfl⟩
    | e :: rest =>
      cases hpair : Symbol.pair? c e with
      | none => exact ⟨s, e :: rest, by simp [symbol?, hpair, hsingle], by simp [hs], fun _ => rfl⟩
      | some s' =>
        refine ⟨s', rest, by simp [symbol?, hpair], ?_⟩
        rw [Symbol.pair?_spelling hpair]
        exact ⟨Nat.le_succ 1, nofun⟩
  · exact ⟨s, rest, by simp [symbol?, hpair], by simp [hs], fun _ => rfl⟩

theorem ofWord_iff {word : String} : TokenKind.ofWord word = kind ↔ Means word kind := by
  constructor
  · rintro rfl
    unfold TokenKind.ofWord
    split
    · rename_i k hk
      obtain rfl : k.spelling = word := by simpa using List.find?_some hk
      exact .keyword k
    · rename_i hk
      split
      · rename_i t ht
        obtain rfl : t.spelling = word := by simpa using List.find?_some ht
        exact .type t
      · rename_i ht
        refine .name (fun k => ?_) fun t => ?_
        · simpa using List.find?_eq_none.mp hk k (by cases k <;> decide)
        · simpa using List.find?_eq_none.mp ht t (by cases t <;> decide)
  · rintro (k | t | ⟨hk, ht⟩)
    · cases k <;> rfl
    · cases t <;> rfl
    · simp [TokenKind.ofWord, List.find?_eq_none.mpr, hk, ht]

private theorem isDigit_eq_false (h : startsName c = true) : c.isDigit = false := by
  rw [Bool.eq_false_iff]
  intro hdigit
  have hrange : 48 ≤ c.toNat ∧ c.toNat ≤ 57 := Char.isDigit_iff_toNat.mp hdigit
  simp only [startsName, Text.isLetter, Bool.or_eq_true, decide_eq_true_eq] at h
  rcases h with h | rfl
  · rw [if_pos (by omega), Char.isAlpha, Bool.or_eq_true] at h
    rcases h with h | h
    · have hupper : 65 ≤ c.toNat := UInt32.le_iff_toNat_le.mp (of_decide_eq_true h).1
      omega
    · have hlower : 97 ≤ c.toNat := UInt32.le_iff_toNat_le.mp (of_decide_eq_true (Bool.and_eq_true_iff.mp h).1)
      omega
  · cases hdigit

/-! ### What the scanner reads at a place -/

theorem Spells.ne_nil (h : Spells text kind) : text ≠ [] := by
  cases h with
  | symbol s => rcases s.spelling_cases with ⟨_, h, -⟩ | ⟨_, _, h, -⟩ <;> simp [h]
  | whole h =>
    obtain ⟨_, _, rfl, _⟩ := h
    exact nofun
  | _ => simp

theorem Spells.ne_endOfText (h : Spells text kind) : kind ≠ .endOfText := by
  cases h with
  | word _ _ hmeans =>
    generalize String.ofList _ = word at hmeans
    cases hmeans <;> exact nofun
  | _ => exact nofun

/-- A token is a symbol or a text literal, or it has only the characters of names and numbers. -/
theorem Spells.plain (h : Spells text kind) : (∃ s, text = s.spelling.toList ∧ kind = .symbol s) ∨
    (∃ spelled value, QuotedText spelled value ∧ text = '"' :: (spelled ++ ['"']) ∧
      kind = .text (String.ofList value)) ∨
    (∀ s, kind ≠ .symbol s) ∧ (∀ value, kind ≠ .text value) ∧
      ∀ c ∈ text, c = '.' ∨ continuesNumber c = true ∨ continuesName c = true := by
  have hdigits {ds : List Char} (h : IsDigits ds) : ∀ c ∈ ds, c = '.' ∨ continuesNumber c = true ∨
      continuesName c = true := by
    obtain ⟨d, more, rfl, hd, hmore⟩ := h
    exact forall_mem_cons.mpr ⟨.inr (.inl (by simp [continuesNumber, hd])), fun c hc => .inr (.inl (hmore c hc))⟩
  cases h with
  | symbol s => exact .inl ⟨s, rfl, rfl⟩
  | text h => exact .inr (.inl ⟨_, _, h, rfl, rfl⟩)
  | whole h => exact .inr (.inr ⟨nofun, nofun, hdigits h⟩)
  | fraction h h' =>
    exact .inr (.inr ⟨nofun, nofun,
      forall_mem_append.mpr ⟨hdigits h, forall_mem_cons.mpr ⟨.inl rfl, hdigits h'⟩⟩⟩)
  | @word c cs _ hstart hcontinue hmeans =>
    have hname : continuesName c = true := by
      simp only [startsName, continuesName, Bool.or_eq_true] at hstart ⊢
      exact hstart.imp_left .inl
    refine .inr (.inr ⟨?_, ?_,
      forall_mem_cons.mpr ⟨.inr (.inr hname), fun d hd => .inr (.inr (hcontinue d hd))⟩⟩) <;>
      generalize String.ofList (c :: cs) = word at hmeans <;> cases hmeans <;> exact nofun

theorem Spells.not_mem (h : Spells text kind) : '\n' ∉ text := by
  obtain ⟨s, rfl, -⟩ | ⟨spelled, value, hspelled, rfl, -⟩ | ⟨-, -, hplain⟩ := h.plain
  · cases s <;> decide
  · simp [hspelled.not_mem]
  · exact fun hc => absurd (hplain _ hc) (by decide)

private theorem number_spells (h : c.isDigit = true) (ahead : List Char) :
    c :: ahead = (number c ahead).2.1 ++ (number c ahead).2.2 ∧
      Spells (number c ahead).2.1 (.number (number c ahead).1) := by
  have hwhole : IsDigits (c :: ahead.takeWhile continuesNumber) :=
    ⟨c, _, rfl, h, all_eq_true.mp all_takeWhile⟩
  have hsplit := @takeWhile_append_dropWhile _ continuesNumber ahead
  unfold number
  split
  · rename_i d more hrest
    rw [hrest] at hsplit
    split
    · rename_i hd
      refine ⟨?_, .fraction hwhole ⟨d, _, rfl, hd, all_eq_true.mp all_takeWhile⟩⟩
      simp [hsplit]
    · exact ⟨congrArg (c :: ·) hsplit.symm, .whole hwhole⟩
  · exact ⟨congrArg (c :: ·) hsplit.symm, .whole hwhole⟩

/-- What is read is a token with its text, or a fault. A fault uses up a newline only as the character of an
escape. -/
theorem lexeme_spells (line : Nat) (c : Char) (ahead : List Char) :
    ∃ text, c :: ahead = text ++ (lexeme line c ahead).2 ∧
      ((∃ kind, Spells text kind ∧ (lexeme line c ahead).1 = .ok ⟨kind, String.ofList text, line⟩) ∨
        ∃ fault, (lexeme line c ahead).1 = .error ⟨fault, line⟩ ∧
          (c ≠ '\n' → text.count '\n' = if fault = .invalidEscape '\n' then 1 else 0)) := by
  unfold lexeme
  split
  · rename_i s rest h
    exact ⟨_, symbol?_eq_some h, .inl ⟨_, .symbol s, by simp⟩⟩
  split
  · rename_i hc
    obtain ⟨spelled, value, rest, rfl, hspelled, hrest⟩ := exists_literal ahead
    have hcount := count_eq_zero.mpr hspelled.not_mem
    rw [hspelled.quotation_append]
    rcases hrest with rfl | rfl | ⟨more, rfl⟩ | ⟨more, rfl⟩ | ⟨e, more, rfl, he⟩
    · exact ⟨_, (append_nil _).symm, .inr ⟨_, rfl, fun _ => by simp [hc, hcount]⟩⟩
    · exact ⟨_, (append_nil _).symm, .inr ⟨_, rfl, fun _ => by simp [hc, hcount]⟩⟩
    · exact ⟨'"' :: (spelled ++ ['"']), by simp [hc, quotation], .inl ⟨_, .text hspelled, by simp [quotation]⟩⟩
    · exact ⟨'"' :: spelled, by simp [hc, quotation], .inr ⟨_, rfl, fun _ => by simp [hcount]⟩⟩
    · refine ⟨'"' :: (spelled ++ ['\\', e]), by simp [hc, quotation, he], .inr ⟨.invalidEscape e, ?_, fun _ => ?_⟩⟩
      · simp [quotation, he]
      · by_cases hnewline : e = '\n' <;> simp [hcount, hnewline]
  split
  · rename_i hdigit
    obtain ⟨hsplit, hspells⟩ := number_spells hdigit ahead
    exact ⟨_, hsplit, .inl ⟨_, hspells, rfl⟩⟩
  split
  · rename_i hstart
    have hword := Spells.word hstart (all_eq_true.mp (@all_takeWhile _ continuesName ahead))
        (ofWord_iff.mp rfl)
    exact ⟨_, congrArg (c :: ·) takeWhile_append_dropWhile.symm, .inl ⟨_, hword, rfl⟩⟩
  · exact ⟨[c], rfl, .inr ⟨_, rfl, fun hc => by simp [hc]⟩⟩

theorem Spells.lexeme_eq (h : Spells text kind) (hcs : c :: ahead = text ++ rest) (line : Nat) :
    ∃ text' kind' rest', lexeme line c ahead = (.ok ⟨kind', String.ofList text', line⟩, rest') ∧
      text.length ≤ text'.length ∧ (text = text' → kind = kind') := by
  have hnumber (hc : c.isDigit = true) : lexeme line c ahead
      = (.ok ⟨.number (number c ahead).1, String.ofList (number c ahead).2.1, line⟩, (number c ahead).2.2) := by
    rw [lexeme, symbol?_eq_none (.inr (.inl hc))]
    dsimp only
    rw [if_neg (fun h => by cases h ▸ hc), if_pos hc]
  cases h with
  | symbol s =>
    obtain ⟨s', rest', hsymbol, hle, heq⟩ := symbol?_of_spelling hcs
    exact ⟨s'.spelling.toList, .symbol s', rest', by simp [lexeme, hsymbol], hle, fun h => congrArg _ (heq h)⟩
  | text hspelled =>
    obtain ⟨rfl, rfl⟩ := List.cons.inj hcs
    refine ⟨_, _, rest, ?_, Nat.le_refl _, fun _ => rfl⟩
    simp [lexeme, symbol?_eq_none (.inl rfl), hspelled.quotation_eq]
  | whole hds =>
    obtain ⟨d, more, rfl, hd, hmore⟩ := hds
    rw [cons_append, List.cons.injEq] at hcs
    obtain ⟨rfl, rfl⟩ := hcs
    refine ⟨_, _, _, hnumber hd, ?_⟩
    simp only [number, takeWhile_append_of_pos hmore]
    split
    · split
      · exact ⟨by simp, fun h => by simp at h⟩
      · exact ⟨by simp, congrArg fun ds => TokenKind.number (.ofDecimal (digitsValue ds) 0)⟩
    · exact ⟨by simp, congrArg fun ds => TokenKind.number (.ofDecimal (digitsValue ds) 0)⟩
  | fraction hds hes =>
    obtain ⟨d, more, rfl, hd, hmore⟩ := hds
    obtain ⟨e, more', rfl, he, hmore'⟩ := hes
    rw [cons_append, cons_append, append_assoc, List.cons.injEq] at hcs
    obtain ⟨rfl, rfl⟩ := hcs
    have hpoint : continuesNumber '.' ≠ true := by decide
    refine ⟨_, _, _, hnumber hd, ?_⟩
    simp only [number, takeWhile_append_of_pos hmore, dropWhile_append_of_pos hmore, cons_append,
      takeWhile_cons_of_neg hpoint, dropWhile_cons_of_neg hpoint, if_pos he,
      takeWhile_append_of_pos hmore', append_nil]
    refine ⟨by simp, fun h => ?_⟩
    have hnil : rest.takeWhile continuesNumber = [] := by simpa using h
    rw [hnil, append_nil]
  | @word d cs _ hstart hcontinue hmeans =>
    rw [cons_append, List.cons.injEq] at hcs
    obtain ⟨rfl, rfl⟩ := hcs
    have hquote : c ≠ '"' := by
      rintro rfl
      cases hstart
    refine ⟨c :: (cs ++ rest.takeWhile continuesName),
      .ofWord (String.ofList (c :: (cs ++ rest.takeWhile continuesName))),
      rest.dropWhile continuesName, ?_, by simp, fun h => ?_⟩
    · rw [lexeme, symbol?_eq_none (.inr (.inr hstart))]
      simp only [if_neg hquote, isDigit_eq_false hstart, if_pos hstart, takeWhile_append_of_pos hcontinue,
        dropWhile_append_of_pos hcontinue]
      rfl
    · rw [← h]
      exact (ofWord_iff.mpr hmeans).symm

theorem lexeme_eq_ok_iff (hcs : c :: ahead = text ++ rest) :
    lexeme line c ahead = (.ok ⟨kind, String.ofList text, line⟩, rest) ↔ IsToken text rest kind := by
  obtain ⟨text', hsplit, hread⟩ := lexeme_spells line c ahead
  constructor
  · intro h
    rw [h] at hsplit hread
    obtain rfl : text = text' := append_cancel_right (hcs.symm.trans hsplit)
    obtain ⟨kind', hspells, hok⟩ | ⟨fault, herror, -⟩ := hread
    · obtain rfl : kind = kind' := by simpa using hok
      refine ⟨hspells, fun {t r k} heq ht => ?_⟩
      obtain ⟨text', kind', rest', hlexeme, hle, -⟩ := ht.lexeme_eq (hcs.trans heq) line
      rw [h] at hlexeme
      obtain ⟨⟨-, rfl⟩, -⟩ : (_ ∧ text = text') ∧ _ := by simpa [String.ofList_inj] using hlexeme
      exact hle
    · cases herror
  · rintro ⟨hspells, hlongest⟩
    obtain ⟨text'', kind', rest', hlexeme, hle, heq⟩ := hspells.lexeme_eq hcs line
    rw [hlexeme] at hsplit hread
    obtain ⟨kind'', hspells', hok⟩ | ⟨fault, herror, -⟩ := hread
    · obtain ⟨rfl, rfl⟩ : kind' = kind'' ∧ text'' = text' := by simpa [String.ofList_inj] using hok
      have hboth := hcs.symm.trans hsplit
      obtain ⟨rfl, rfl⟩ := append_inj hboth (Nat.le_antisymm hle (hlongest hboth hspells'))
      rw [hlexeme, heq rfl]
    · cases herror

/-! ### Cuts -/

theorem IsGap.append {gap gap' : List Char} (h : IsGap (gap' ++ rest) gap) (h' : IsGap rest gap') :
    IsGap rest (gap ++ gap') := by
  induction h with
  | nil => exact h'
  | blank hc _ ih => exact .blank hc ih
  | line hcomment _ ih =>
    rw [cons_append, cons_append, append_assoc]
    exact .line hcomment ih
  | lastLine hcomment hnil =>
    obtain ⟨rfl, rfl⟩ := append_eq_nil_iff.mp hnil
    rw [append_nil]
    exact .lastLine hcomment rfl
  | block hcomment _ ih =>
    rw [cons_append, cons_append, append_assoc]
    exact .block hcomment ih

theorem isLongestGap_iff {gap : List Char} (hopen : ¬ ['/', '*'] <+: rest) :
    IsLongestGap gap rest ↔ IsGap rest gap ∧ EndsGap rest := by
  constructor
  · rintro ⟨hgap, hlongest⟩
    obtain ⟨more, rest, rfl, hmore, hends⟩ := exists_gap rest
    have hle := hlongest (append_assoc _ _ _).symm (hgap.append hmore)
    rw [length_append] at hle
    obtain rfl : more = [] := length_eq_zero_iff.mp (by omega)
    refine ⟨hgap, hends.resolve_right ?_⟩
    rintro ⟨⟨body, rfl⟩, -⟩
    exact hopen ⟨body, rfl⟩
  · rintro ⟨hgap, hends⟩
    refine ⟨hgap, fun {g r} heq hg => ?_⟩
    -- Both gaps are left out by the same reading, which leaves no more than what is behind either of them.
    have hskip := hgap.skipGap_eq 0
    rw [heq, hg.skipGap_eq, hends.skipGap_eq] at hskip
    have hle := Cursor.skipGap_length_le .blank (0 + g.count '\n') r
    rw [hskip] at hle
    have hlength := congrArg List.length heq
    simp only [length_append] at hlength hle
    omega

theorem Cut.next {cs : List Char} {cut} (h : Cut cs cut) (line : Nat) :
    (cut = [] ∧ ∃ line', Cursor.next ⟨cs, line⟩ = .finished line') ∨
      ∃ t after cut', Cursor.next ⟨cs, line⟩ = .item (.ok t) after ∧ cut = (t.kind, t.lexeme) :: cut' ∧
        Cut after.ahead cut' := by
  cases h with
  | done hgap => exact .inl ⟨rfl, _, hgap.next_finished line⟩
  | @token gap text rest kind cut hgap _ hopen htoken hcut =>
    obtain ⟨hgap, hends⟩ := (isLongestGap_iff hopen).mp hgap
    cases hcs : text ++ rest with
    | nil => exact absurd (append_eq_nil_iff.mp hcs).1 htoken.spells.ne_nil
    | cons c ahead =>
      rw [hcs] at hgap hends
      have hnext := hgap.next_item hends line
      rw [(lexeme_eq_ok_iff hcs.symm).mpr htoken] at hnext
      exact .inr ⟨_, _, _, hnext, rfl, hcut⟩

private theorem cut_of_next_finished {cs : List Char} {line' : Nat} (h : Cursor.next ⟨cs, line⟩ = .finished line') :
    Cut cs [] := by
  obtain ⟨gap, rest, rfl, hgap, ⟨rfl, -⟩ | ⟨-, h'⟩ | ⟨c, ahead, -, -, h'⟩⟩ := Cursor.next_cases cs line
  · rw [append_nil]
    exact .done hgap
  · cases h.symm.trans h'
  · cases h.symm.trans h'

private theorem cut_of_next_item {cs : List Char} {t : Token} {after : Cursor} {cut}
    (h : Cursor.next ⟨cs, line⟩ = .item (.ok t) after) (hcut : Cut after.ahead cut) :
    Cut cs ((t.kind, t.lexeme) :: cut) := by
  obtain ⟨gap, rest, rfl, hgap, ⟨-, h'⟩ | ⟨-, h'⟩ | ⟨c, ahead, rfl, hends, h'⟩⟩ := Cursor.next_cases cs line
  · cases h.symm.trans h'
  · cases h.symm.trans h'
  · obtain ⟨hok, rfl⟩ := Cursor.Reading.item.inj (h.symm.trans h')
    obtain ⟨text, hsplit, ⟨kind, hspells, hlexeme⟩ | ⟨fault, herror, -⟩⟩ :=
        lexeme_spells (line + gap.count '\n') c ahead
    · obtain rfl := Except.ok.inj (hok.trans hlexeme)
      have htoken := (lexeme_eq_ok_iff hsplit).mp (Prod.ext hlexeme rfl)
      have hlongest := (isLongestGap_iff hends.block).mpr ⟨hgap, hends⟩
      rw [hsplit] at hlongest hends ⊢
      exact .token hlongest hends.line hends.block htoken hcut
    · cases hok.trans herror

def lexedToken? : Lexed → Option (TokenKind × String)
  | .ok t => some (t.kind, t.lexeme)
  | .error _ => none

theorem Cursor.Reads.cut_iff {cursor : Cursor} {items : List Lexed} (h : cursor.Reads items line) :
    ∀ cut, Cut cursor.ahead cut ↔ items.map lexedToken? = cut.map some := by
  induction h with
  | @finished cursor line hnext =>
    refine fun cut => ⟨fun hcut => ?_, fun hcut => ?_⟩
    · obtain ⟨rfl, -⟩ | ⟨t, after, cut', h, -⟩ := hcut.next cursor.line
      · rfl
      · cases hnext.symm.trans h
    · obtain rfl : cut = [] := by simpa using hcut.symm
      exact cut_of_next_finished hnext
  | @item cursor after lexed items line hnext _ ih =>
    refine fun cut => ⟨fun hcut => ?_, fun hcut => ?_⟩
    · obtain ⟨-, line', h⟩ | ⟨t, after, cut', h, rfl, hcut'⟩ := hcut.next cursor.line
      · cases hnext.symm.trans h
      · cases hnext.symm.trans h
        exact congrArg (some _ :: ·) ((ih cut').mp hcut')
    · cases cut with
      | nil => cases hcut
      | cons piece cut =>
        obtain ⟨hpiece, hrest⟩ := List.cons.inj hcut
        cases lexed with
        | error e => cases hpiece
        | ok t =>
          obtain rfl := Option.some.inj hpiece
          exact cut_of_next_item hnext ((ih cut).mpr hrest)

theorem Cursor.Reads.spells {cursor : Cursor} {items} (h : cursor.Reads items line) {t : Token}
    (ht : .ok t ∈ items) : ∃ text, Spells text t.kind := by
  induction h with
  | finished => cases ht
  | @item cursor after lexed items line hnext _ ih =>
    rcases mem_cons.mp ht with rfl | ht
    · obtain ⟨gap, rest, -, -, ⟨-, h⟩ | ⟨-, h⟩ | ⟨c, ahead, -, -, h⟩⟩ := next_cases cursor.ahead cursor.line
      · cases hnext.symm.trans h
      · cases hnext.symm.trans h
      · have hok := (Reading.item.inj (hnext.symm.trans h)).1
        obtain ⟨text, -, ⟨kind, hspells, hlexeme⟩ | ⟨fault, herror, -⟩⟩ :=
            lexeme_spells (cursor.line + gap.count '\n') c ahead
        · obtain rfl := Except.ok.inj (hok.trans hlexeme)
          exact ⟨text, hspells⟩
        · cases hok.trans herror
    · exact ih ht

/-! ### Texts without a fault -/

theorem mapM_id_eq_ok {items : List Lexed} {tokens : List Token} :
    items.mapM id = Except.ok tokens ↔ items = tokens.map .ok := by
  induction items generalizing tokens with
  | nil => cases tokens <;> simp [pure, Except.pure]
  | cons item items ih =>
    rw [mapM_cons]
    cases item with
    | error e => cases tokens <;> exact iff_of_false nofun nofun
    | ok t =>
      cases hrest : items.mapM (id : Lexed → Lexed) with
      | error e =>
        refine iff_of_false nofun fun heq => ?_
        cases tokens with
        | nil => cases heq
        | cons t' tokens => cases hrest.symm.trans (ih.mpr (List.cons.inj heq).2)
      | ok rest =>
        obtain rfl := ih.mp hrest
        have hread : (do return (← id (.ok t : Lexed)) :: (← Except.ok rest) : Except LexicalError (List Token))
            = .ok (t :: rest) := rfl
        rw [hread, Except.ok.injEq, ← map_cons, map_inj_right fun _ _ => Except.ok.inj]

theorem Tokens.strict_eq_ok {tokens : Tokens} {list} (h : tokens.strict = .ok list) :
    ∃ before, tokens.items = before.map .ok ∧ list = before ++ [.endOfText tokens.endLine] := by
  rw [strict, mapM_id_eq_ok, toList, eq_comm, map_eq_append_iff] at h
  obtain ⟨before, last, rfl, hitems, hlast⟩ := h
  obtain ⟨t, rfl, ht⟩ : ∃ t, last = [t] ∧ _ := map_eq_singleton_iff.mp hlast
  exact ⟨before, hitems.symm, congrArg (before ++ [·]) (Except.ok.inj ht)⟩

section

variable {β : Type} {g : Lexed → Option β} {f : Token → β} (hok : ∀ t, g (.ok t) = some (f t))
  (herror : ∀ e, g (.error e) = none) {ks : List β}

include hok herror

private theorem map_eq_map_some {items : List Lexed} :
    items.map g = ks.map some ↔ ∃ tokens : List Token, items = tokens.map .ok ∧ tokens.map f = ks := by
  constructor
  · intro h
    induction items generalizing ks with
    | nil => exact ⟨[], rfl, (map_eq_nil_iff.mp h.symm).symm⟩
    | cons item items ih =>
      cases ks with
      | nil => cases h
      | cons k ks =>
        obtain ⟨hk, hrest⟩ := List.cons.inj h
        obtain ⟨tokens, rfl, rfl⟩ := ih hrest
        cases item with
        | error e => cases (herror e).symm.trans hk
        | ok t => exact ⟨t :: tokens, rfl, congrArg (· :: _) (Option.some.inj ((hok t).symm.trans hk))⟩
  · rintro ⟨tokens, rfl, rfl⟩
    simp [hok]

theorem Tokens.strict_map_iff {tokens : Tokens} :
    (∃ list, tokens.strict = .ok list ∧ list.map f = ks ++ [f (.endOfText tokens.endLine)]) ↔
      tokens.items.map g = ks.map some := by
  rw [map_eq_map_some hok herror]
  constructor
  · rintro ⟨list, hstrict, hks⟩
    obtain ⟨before, hitems, rfl⟩ := strict_eq_ok hstrict
    rw [map_append] at hks
    exact ⟨before, hitems, (append_inj' hks rfl).1⟩
  · rintro ⟨list, hitems, rfl⟩
    refine ⟨list ++ [.endOfText tokens.endLine], ?_, map_append⟩
    rw [Tokens.strict, mapM_id_eq_ok, Tokens.toList, hitems, map_append]
    rfl

end

theorem Tokens.cut_iff {source : String} {cut} : Cut source.toList cut ↔
    ∃ tokens, (ofSource source).strict = .ok tokens ∧
      tokens.map (fun t => (t.kind, t.lexeme)) = cut ++ [(.endOfText, "")] :=
  ((ofSource_reads source).cut_iff cut).trans (strict_map_iff (g := lexedToken?) (fun _ => rfl) fun _ => rfl).symm

/-- A text scans without a fault just when it can be cut. The tokens are then those of its one cut, and the end
of the text. -/
theorem Tokens.strict_ok_iff_cut (source : String) :
    ((∃ tokens, (ofSource source).strict = .ok tokens) ↔ ∃ cut, Cut source.toList cut) ∧
      ∀ cut, Cut source.toList cut ↔ ∃ tokens, (ofSource source).strict = .ok tokens ∧
        tokens.map (fun t => (t.kind, t.lexeme)) = cut ++ [(.endOfText, "")] := by
  refine ⟨⟨?_, ?_⟩, fun cut => cut_iff⟩
  · rintro ⟨tokens, htokens⟩
    obtain ⟨before, -, rfl⟩ := strict_eq_ok htokens
    exact ⟨_, cut_iff.mpr ⟨_, htokens, map_append⟩⟩
  · rintro ⟨cut, h⟩
    obtain ⟨tokens, htokens, -⟩ := cut_iff.mp h
    exact ⟨tokens, htokens⟩

/-! ### Lines -/

/-- Whether a newline is used up without being counted. -/
def takesNewline : Lexed → Bool
  | .error e => e.fault = .invalidEscape '\n'
  | .ok _ => false

/-- Reading to the end behind the text `front`: what is read, each with the whole text in front of its first
character. -/
inductive Cursor.Places : List Char → Cursor → List (List Char × Lexed) → Nat → Prop
  | finished {front cursor line} : cursor.next = .finished line → Places front cursor [] line
  | item {front gap text cursor after lexed places}
      {line} : cursor.next = .item lexed after → cursor.ahead = gap ++ (text ++ after.ahead) →
      IsGap (text ++ after.ahead) gap → EndsGap (text ++ after.ahead) ∨ Unclosed (text ++ after.ahead) →
      Places (front ++ gap ++ text) after places line → Places front cursor ((front ++ gap, lexed) :: places) line

theorem Cursor.next_place {cursor after : Cursor} {lexed : Lexed} (h : cursor.next = .item lexed after) :
    ∃ gap text, cursor.ahead = gap ++ (text ++ after.ahead) ∧ IsGap (text ++ after.ahead) gap ∧
      (EndsGap (text ++ after.ahead) ∨ Unclosed (text ++ after.ahead)) ∧
      lexedLine lexed = cursor.line + gap.count '\n' ∧
      after.line + (takesNewline lexed).toNat = lexedLine lexed + text.count '\n' := by
  obtain ⟨gap, rest, hcs, hgap, ⟨-, h'⟩ | ⟨hunclosed, h'⟩ | ⟨c, ahead, rfl, hends, h'⟩⟩ :=
    next_cases cursor.ahead cursor.line
  · cases h.symm.trans h'
  · cases h.symm.trans h'
    refine ⟨gap, rest, by simp [hcs], by simpa using hgap, .inr (by simpa using hunclosed), rfl, ?_⟩
    simp [hcs, takesNewline, lexedLine, Nat.add_assoc]
  · cases h.symm.trans h'
    obtain ⟨text, hsplit, hlexed⟩ := lexeme_spells (cursor.line + gap.count '\n') c ahead
    have hc : c ≠ '\n' := fun hc => hends.blank c rfl (.inr (.inr (.inr hc)))
    rw [hsplit] at hcs hgap hends
    refine ⟨gap, text, hcs, hgap, .inl hends, lexeme_line _ _ _, ?_⟩
    rw [lexeme_line]
    obtain ⟨kind, hspells, h⟩ | ⟨fault, h, hcount⟩ := hlexed
    · simp [h, takesNewline, count_eq_zero.mpr hspells.not_mem]
    · rw [h, hcount hc]
      by_cases hfault : fault = .invalidEscape '\n' <;> simp [takesNewline, hfault]

theorem Cursor.Reads.places {cursor : Cursor} {items : List Lexed} (h : cursor.Reads items line)
    (front : List Char) (lost : Nat) (hfront : cursor.line + lost = 1 + front.count '\n') :
    ∃ places, Places front cursor places line ∧ places.map (·.2) = items ∧
      (∀ i before lexed, places[i]? = some (before, lexed) →
        lexedLine lexed + (lost + (items.take i).countP takesNewline) = 1 + before.count '\n') ∧
      line + (lost + items.countP takesNewline) = 1 + (front ++ cursor.ahead).count '\n' := by
  induction h generalizing front lost with
  | @finished cursor line hnext =>
    refine ⟨[], .finished hnext, rfl, nofun, ?_⟩
    obtain ⟨gap, rest, hcs, -, ⟨rfl, h⟩ | ⟨-, h⟩ | ⟨c, ahead, -, -, h⟩⟩ := next_cases cursor.ahead cursor.line
    · cases hnext.symm.trans h
      simp only [hcs, append_nil, count_append, countP_nil]
      omega
    · cases hnext.symm.trans h
    · cases hnext.symm.trans h
  | @item cursor after lexed items line hnext _ ih =>
    obtain ⟨gap, text, hcs, hgap, hends, hline, hafter⟩ := next_place hnext
    have hfront' : after.line + (lost + (takesNewline lexed).toNat) = 1 + (front ++ gap ++ text).count '\n' := by
      simp only [count_append]
      omega
    obtain ⟨places, hplaces, rfl, hlines, hlast⟩ := ih _ _ hfront'
    have hcount (items : List Lexed) : (lexed :: items).countP takesNewline
        = items.countP takesNewline + (takesNewline lexed).toNat := by
      rw [countP_cons]
      cases takesNewline lexed <;> rfl
    refine ⟨_, .item hnext hcs hgap hends hplaces, rfl, fun i before lexed' hi => ?_, ?_⟩
    · cases i with
      | zero =>
        cases hi
        simp only [count_append, take_zero, countP_nil]
        omega
      | succ i =>
        have hlater := hlines i before lexed' hi
        rw [take_succ_cons, hcount]
        omega
    · rw [hcount, hcs, ← append_assoc, ← append_assoc]
      omega

/-- The line of everything that is read is one more than the newlines in front of it, less those that were used
up by then as the character of an escape; and so is the line the text ends on. -/
theorem Tokens.lines_of_source (source : String) : ∃ places,
    Cursor.Places [] (.start source) places (ofSource source).endLine ∧
      places.map (·.2) = (ofSource source).items ∧
      (∀ i before lexed, places[i]? = some (before, lexed) →
        lexedLine lexed + ((ofSource source).items.take i).countP takesNewline = 1 + before.count '\n') ∧
      (ofSource source).endLine + (ofSource source).items.countP takesNewline = 1 + source.toList.count '\n' := by
  obtain ⟨places, hplaces, hitems, hlines, hlast⟩ := (ofSource_reads source).places [] 0 rfl
  simp only [Nat.zero_add, nil_append] at hlines hlast
  exact ⟨places, hplaces, hitems, hlines, hlast⟩

end Mudscript
