import Mathlib
import Mudscript.Routine.Listing

/-!
# The numbers of a listing

A listing writes whole numbers by way of 64-bit integers, and all others as their shortest decimals. To tell which
numbers it shows alike, texts are read back. The text of a whole number is that of its value, cut off at the ends of the
range of integers. Any other text is a decimal that rounds to the number: the search for it comes to a grid fine enough,
and the decimals that round to one number do not round to another. So two numbers look alike if they are equal, or if
both are beyond the same end of the range.
-/

namespace Mudscript

open List

/-! ### Magnitudes -/

namespace Magnitude

/-- The magnitudes of finite numbers: 53 bits, and all of them in use unless the exponent is the least. -/
structure IsCanonical (m : Magnitude) : Prop where
  significand_lt : m.significand < 2 ^ 53
  le_exponent : -1074 ≤ m.exponent
  exponent_le : m.exponent ≤ 971
  le_significand : -1074 < m.exponent → 2 ^ 52 ≤ m.significand

def value (m : Magnitude) : ℚ := m.significand * 2 ^ m.exponent

/-- How far the lower end of the interval of a magnitude lies below it, in quarters of its last place. -/
def gap (m : Magnitude) : Nat := if m.significand = 2 ^ 52 ∧ -1074 < m.exponent then 1 else 2

/-- A number of quarters of the last place. -/
def quarters (m : Magnitude) (k : Nat) : ℚ := k * 2 ^ (m.exponent - 2)

/-- The rational numbers that round to a magnitude: at most half a place away, with ties going to the even
significand. -/
structure Covers (m : Magnitude) (x : ℚ) : Prop where
  low_le : m.quarters (4 * m.significand - m.gap) ≤ x
  le_high : x ≤ m.quarters (4 * m.significand + 2)
  inside : m.significand % 2 = 1 →
    m.quarters (4 * m.significand - m.gap) < x ∧ x < m.quarters (4 * m.significand + 2)

variable {m m' : Magnitude} {x : ℚ} {j k : Nat}

theorem quarters_lt : m.quarters j < m.quarters k ↔ j < k := by
  rw [quarters, quarters, mul_lt_mul_iff_of_pos_right (by positivity), Nat.cast_lt]

theorem quarters_le : m.quarters j ≤ m.quarters k ↔ j ≤ k := by
  rw [← not_lt, quarters_lt, not_lt]

private theorem quarters_shift (h : m'.exponent = m.exponent + j) : m'.quarters k = m.quarters (k * 2 ^ j) := by
  rw [quarters, quarters, h, show m.exponent + j - 2 = j + (m.exponent - 2) by ring, zpow_add₀ two_ne_zero,
    zpow_natCast]
  push_cast
  ring

private theorem value_eq_quarters (m : Magnitude) : m.value = m.quarters (4 * m.significand) := by
  rw [value, quarters, zpow_sub₀ two_ne_zero]
  push_cast
  ring

theorem Covers.nonneg (h : m.Covers x) : 0 ≤ x := le_trans (by unfold quarters; positivity) h.low_le

theorem Covers.eq_zero (h : m.Covers 0) : m.value = 0 := by
  have hlow : m.quarters (4 * m.significand - m.gap) ≤ m.quarters 0 := by simpa [quarters] using h.low_le
  rw [quarters_le, gap] at hlow
  have hzero : m.significand = 0 := by split at hlow <;> omega
  simp [value, hzero]

theorem covers_value (m : Magnitude) : m.Covers m.value := by
  rw [value_eq_quarters]
  refine ⟨quarters_le.mpr (Nat.sub_le _ _), quarters_le.mpr (Nat.le_add_right _ _), fun hodd => ?_⟩
  refine ⟨quarters_lt.mpr ?_, quarters_lt.mpr (by omega)⟩
  unfold gap
  split <;> omega

/-- The upper end of one interval against the lower end of another, `j` places further left. -/
theorem Covers.compare (h : m.Covers x) (h' : m'.Covers x) (hj : m'.exponent = m.exponent + j) :
    (4 * m'.significand - m'.gap) * 2 ^ j ≤ 4 * m.significand + 2 ∧
      ((4 * m'.significand - m'.gap) * 2 ^ j = 4 * m.significand + 2 →
        m.significand % 2 = 0 ∧ m'.significand % 2 = 0) := by
  obtain ⟨hlow, _, hinside'⟩ := h'
  rw [quarters_shift hj] at hlow hinside'
  refine ⟨quarters_le.mp (hlow.trans h.le_high), fun heq => ?_⟩
  rw [heq] at hlow hinside'
  have hx := le_antisymm h.le_high hlow
  refine ⟨?_, ?_⟩ <;> by_contra hodd
  · exact (h.inside (Nat.mod_two_ne_zero.mp hodd)).2.ne hx
  · exact (hinside' (Nat.mod_two_ne_zero.mp hodd)).1.ne hx.symm

theorem Covers.exponent_le (h : m.Covers x) (h' : m'.Covers x) (hm : m.IsCanonical) (hm' : m'.IsCanonical) :
    m'.exponent ≤ m.exponent := by
  by_contra hlt
  obtain ⟨j, hj⟩ := Int.le.dest (Int.add_one_le_of_lt (not_le.mp hlt))
  obtain ⟨hle, heq⟩ := h.compare h' (j := j + 1) (by push_cast; linarith)
  have hleast := hm.le_exponent
  have hleading := hm'.le_significand (by omega)
  have hbelow : 2 ^ 54 - 1 ≤ 4 * m'.significand - m'.gap := by
    unfold gap
    split <;> omega
  have hplaces : (2 ^ 54 - 1) * 2 ≤ (4 * m'.significand - m'.gap) * 2 ^ (j + 1) :=
    Nat.mul_le_mul hbelow (by rw [pow_succ]; have := Nat.one_le_two_pow (n := j); omega)
  have := hm.significand_lt
  have := heq (by omega)
  omega

/-- No number rounds to two magnitudes. -/
theorem Covers.eq (h : m.Covers x) (h' : m'.Covers x) (hm : m.IsCanonical) (hm' : m'.IsCanonical) : m = m' := by
  have hexponent := le_antisymm (h'.exponent_le h hm' hm) (h.exponent_le h' hm hm')
  have hsignificand : ∀ {m m' : Magnitude}, m.Covers x → m'.Covers x → m.exponent = m'.exponent →
      m'.significand ≤ m.significand := by
    intro m m' h h' he
    obtain ⟨hle, heq⟩ := h.compare h' (j := 0) (by simp [he])
    have hgap : m'.gap ≤ 2 := by unfold gap; split <;> omega
    rw [pow_zero, mul_one] at hle heq
    omega
  obtain ⟨s, e⟩ := m
  obtain ⟨s', e'⟩ := m'
  exact congrArg₂ _ (le_antisymm (hsignificand h' h hexponent.symm) (hsignificand h h' hexponent)) hexponent

theorem Covers.lt (h : m.Covers x) (hm : m.IsCanonical) (hfraction : m.exponent < 0) : x < 2 ^ 53 := by
  have hle : m.quarters (4 * m.significand + 2) ≤ (4 * m.significand + 2 : Nat) * 2 ^ (-3 : ℤ) :=
    mul_le_mul_of_nonneg_left (zpow_le_zpow_right₀ (by norm_num) (by omega)) (by positivity)
  have hlt : ((4 * m.significand + 2 : Nat) : ℚ) < 2 ^ 56 := by
    have := hm.significand_lt
    exact_mod_cast (by omega : 4 * m.significand + 2 < 2 ^ 56)
  have := h.le_high
  norm_num at hle hlt ⊢
  linarith

end Magnitude

/-! ### The shortest decimal -/

namespace Decimal

def value (d : Decimal) : ℚ := d.digits * 10 ^ d.exponent

namespace Interval

variable {i : Interval} {k : Int}

private theorem contains_of_onGrid? {d : Nat} (h : i.onGrid? k = some d) :
    i.contains (Nat.pow 10 (-k).toNat) (d * (i.denominator * Nat.pow 10 k.toNat)) = true := by
  simp only [onGrid?] at h
  grind

/-- A grid with a step below half a place has a multiple inside the interval. -/
theorem exists_onGrid? (hlow : i.low ≤ i.value) (hpos : 0 < i.denominator)
    (hfine : i.value * Nat.pow 10 (-k).toNat + i.denominator * Nat.pow 10 k.toNat < i.high * Nat.pow 10 (-k).toNat) :
    ∃ d, i.onGrid? k = some d := by
  have hstep : 0 < i.denominator * Nat.pow 10 k.toNat := Nat.mul_pos hpos (Nat.pow_pos (by decide))
  have hbelow := Nat.div_mul_le_self (i.value * Nat.pow 10 (-k).toNat) (i.denominator * Nat.pow 10 k.toNat)
  have habove := Nat.lt_div_mul_add (a := i.value * Nat.pow 10 (-k).toNat) hstep
  have hends := Nat.mul_le_mul_right (Nat.pow 10 (-k).toNat) hlow
  have hhit : i.contains (Nat.pow 10 (-k).toNat) ((i.value * Nat.pow 10 (-k).toNat
      / (i.denominator * Nat.pow 10 k.toNat) + 1) * (i.denominator * Nat.pow 10 k.toNat)) = true := by
    rw [Nat.add_mul, Nat.one_mul]
    unfold contains
    split <;> simp only [Bool.and_eq_true, decide_eq_true_eq] <;> omega
  simp only [onGrid?, hhit, Bool.and_true, if_true]
  split_ifs <;> exact ⟨_, rfl⟩

/-- A search that comes to a grid with a multiple inside the interval ends at such a grid. -/
theorem onGrid?_search {n : Nat} (h : ∃ d, i.onGrid? (k - n) = some d) :
    ∃ d j, i.search (n + 1) k = ⟨d, j⟩ ∧ i.onGrid? j = some d := by
  induction n generalizing k with
  | zero =>
    obtain ⟨d, hd⟩ := h
    rw [Nat.cast_zero, sub_zero] at hd
    exact ⟨d, k, by rw [search, hd], hd⟩
  | succ n ih =>
    rw [search]
    cases hgrid : i.onGrid? k with
    | some d => exact ⟨d, k, rfl, hgrid⟩
    | none => exact ih (by rw [show k - 1 - n = k - (n + 1 : Nat) by push_cast; ring]; exact h)

end Interval

theorem zpow_eq_div {b : Nat} (hb : b ≠ 0) (z : Int) :
    (b : ℚ) ^ z = (Nat.pow b z.toNat : Nat) / (Nat.pow b (-z).toNat : Nat) := by
  rw [Nat.pow_eq, Nat.pow_eq, Nat.cast_pow, Nat.cast_pow, ← zpow_natCast, ← zpow_natCast,
    ← zpow_sub₀ (Nat.cast_ne_zero.mpr hb), Int.toNat_sub_toNat_neg]

/-- Binary and decimal fractions over one denominator. -/
theorem exists_scale (e k : Int) : ∃ c : ℚ, 0 < c ∧
    (∀ a : Nat, (a : ℚ) * 2 ^ e * c = (a * Nat.pow 2 e.toNat * Nat.pow 10 (-k).toNat : Nat)) ∧
    ∀ d : Nat, (d : ℚ) * 10 ^ k * c = (d * (Nat.pow 2 (-e).toNat * Nat.pow 10 k.toNat) : Nat) := by
  have h2 : ((Nat.pow 2 (-e).toNat : Nat) : ℚ) ≠ 0 := Nat.cast_ne_zero.mpr (Nat.pow_pos (by decide)).ne'
  have h10 : ((Nat.pow 10 (-k).toNat : Nat) : ℚ) ≠ 0 := Nat.cast_ne_zero.mpr (Nat.pow_pos (by decide)).ne'
  refine ⟨(Nat.pow 2 (-e).toNat : Nat) * (Nat.pow 10 (-k).toNat : Nat), by positivity, fun a => ?_, fun d => ?_⟩
  · rw [← Nat.cast_two, zpow_eq_div two_ne_zero]
    push_cast
    field_simp
  · rw [← Nat.cast_ofNat (n := 10), zpow_eq_div (by decide)]
    push_cast
    field_simp

variable {m : Magnitude}

/-- Twenty-three grids below the leading digit the step is smaller than half a place. -/
theorem fine_of_isCanonical (hm : m.IsCanonical) :
    (10 : ℚ) ^ ((m.exponent + m.significand.log2 + 1) * 30103 / 100000 + 1 - 23) < 2 ^ (m.exponent - 1) := by
  have hlog : m.significand.log2 < 53 := by
    rcases Nat.eq_zero_or_pos m.significand with h | h
    · rw [h]; decide
    · exact (Nat.log2_lt h.ne').mpr hm.significand_lt
  have hleast := hm.le_exponent
  have hgreatest := hm.exponent_le
  generalize hq : (m.exponent + m.significand.log2 + 1) * 30103 / 100000 + 1 - 23 = q
  generalize hp : m.exponent - 1 = p
  -- Both sides are raised to the terms of a fraction near `log 2 / log 10`, from below or from above.
  rcases le_total 0 p with hsign | hsign
  · refine lt_of_pow_lt_pow_left₀ 10 (by positivity) ?_
    calc ((10 : ℚ) ^ q) ^ 10 = 10 ^ (q * 10) := (zpow_mul _ _ _).symm
      _ < 10 ^ (3 * p) := zpow_lt_zpow_right₀ (by norm_num) (by omega)
      _ = (10 ^ 3) ^ p := zpow_mul _ _ _
      _ ≤ (2 ^ 10) ^ p := zpow_le_zpow_left₀ hsign (by norm_num) (by norm_num)
      _ = (2 ^ p) ^ 10 := zpow_comm 2 10 p
  · refine lt_of_pow_lt_pow_left₀ 93 (by positivity) ?_
    calc ((10 : ℚ) ^ q) ^ 93 = 10 ^ (q * 93) := (zpow_mul _ _ _).symm
      _ < 10 ^ (28 * p) := zpow_lt_zpow_right₀ (by norm_num) (by omega)
      _ = (10 ^ 28) ^ p := zpow_mul _ _ _
      _ ≤ (2 ^ 93) ^ p := by
        have hinv : ((2 : ℚ) ^ 93) ^ (-p) ≤ (10 ^ 28) ^ (-p) :=
          zpow_le_zpow_left₀ (neg_nonneg.mpr hsign) (by norm_num) (by norm_num)
        rw [zpow_neg, zpow_neg] at hinv
        exact (inv_le_inv₀ (by positivity) (by positivity)).mp hinv
      _ = (2 ^ p) ^ 93 := zpow_comm 2 93 p

private theorem covers_of_onGrid? {d : Nat} {k : Int} (h : (Interval.ofMagnitude m).onGrid? k = some d) :
    m.Covers (d * 10 ^ k) := by
  obtain ⟨c, hc, hbinary, hdecimal⟩ := exists_scale (m.exponent - 2) k
  rw [neg_sub] at hdecimal
  have hcontains := Interval.contains_of_onGrid? h
  have hgap : (if m.significand = Nat.pow 2 52 && decide (-1074 < m.exponent) then 1 else 2) = m.gap := by
    simp [Magnitude.gap]
  simp only [Interval.contains, Interval.ofMagnitude, hgap] at hcontains
  refine ⟨?_, ?_, fun hodd => ⟨?_, ?_⟩⟩
  all_goals unfold Magnitude.quarters
  · rw [← mul_le_mul_iff_of_pos_right hc, hbinary, hdecimal, Nat.cast_le]
    grind
  · rw [← mul_le_mul_iff_of_pos_right hc, hbinary, hdecimal, Nat.cast_le]
    grind
  · rw [← mul_lt_mul_iff_of_pos_right hc, hbinary, hdecimal, Nat.cast_lt]
    grind
  · rw [← mul_lt_mul_iff_of_pos_right hc, hbinary, hdecimal, Nat.cast_lt]
    grind

private theorem covers_shortest (hm : m.IsCanonical) (hpos : 0 < m.significand) : m.Covers (shortest m).value := by
  have hgrid := Interval.exists_onGrid? (i := .ofMagnitude m)
    (k := (m.exponent + m.significand.log2 + 1) * 30103 / 100000 + 1 - 23)
    (Nat.mul_le_mul_right _ (Nat.sub_le _ _)) (Nat.pow_pos (by decide)) ?_
  · obtain ⟨d, j, hsearch, hd⟩ := Interval.onGrid?_search (n := 23) hgrid
    rw [shortest, if_neg hpos.ne']
    exact hsearch ▸ covers_of_onGrid? hd
  · have hfine := fine_of_isCanonical hm
    generalize (m.exponent + m.significand.log2 + 1) * 30103 / 100000 + 1 - 23 = k at hfine ⊢
    obtain ⟨c, hc, hbinary, hdecimal⟩ := exists_scale (m.exponent - 2) k
    have hstep : ((1 : Nat) : ℚ) * 10 ^ k < (2 : Nat) * 2 ^ (m.exponent - 2) := by
      rw [show m.exponent - 1 = 1 + (m.exponent - 2) by ring, zpow_add₀ two_ne_zero] at hfine
      simpa using hfine
    have hscaled := (mul_lt_mul_iff_of_pos_right hc).mpr hstep
    rw [hbinary, hdecimal, Nat.cast_lt, neg_sub] at hscaled
    simp only [Interval.ofMagnitude]
    rw [Nat.add_mul, Nat.add_mul]
    omega

/-! ### Reading a decimal -/

open Nat (ofDigitChars toDigits)

/-- What a decimal without a sign stands for: all its digits, less as many places as there are behind the point. -/
def readUnsigned (cs : List Char) : ℚ :=
  ofDigitChars 10 (cs.filter (· ≠ '.')) 0 / 10 ^ (cs.dropWhile (· ≠ '.')).tail.length

def read (t : String) : ℚ :=
  if t.toList.head? = some '-' then -readUnsigned t.toList.tail else readUnsigned t.toList

variable {cs ds : List Char} {n : Nat}

theorem readUnsigned_digits (hdigits : ∀ c ∈ cs ++ ds, c.isDigit = true) :
    readUnsigned (if ds = [] then cs else cs ++ '.' :: ds) = ofDigitChars 10 (cs ++ ds) 0 / 10 ^ ds.length := by
  have hall : ∀ c ∈ cs ++ ds, decide (c ≠ '.') = true := fun c hc => decide_eq_true fun hpoint =>
    absurd (hpoint ▸ hdigits c hc) (by decide)
  rw [forall_mem_append] at hall
  have hfilter := filter_eq_self.mpr hall.1
  split
  · rename_i hds
    rw [readUnsigned, hfilter, dropWhile_eq_nil_iff.mpr hall.1, hds, append_nil]
    rfl
  · rw [readUnsigned, filter_append, hfilter, filter_cons_of_neg (by decide), filter_eq_self.mpr hall.2,
      dropWhile_append_of_pos hall.1]
    rfl

private theorem toList_pushn (s : String) (c : Char) (n : Nat) :
    (s.pushn c n).toList = s.toList ++ List.replicate n c := by
  rw [String.pushn_eq_repeat_push]
  induction n with
  | zero => simp [Nat.repeat]
  | succ n ih => simp [Nat.repeat, ih, replicate_succ']

theorem isDigit_of_mem_toDigits {c : Char} (h : c ∈ toDigits 10 n) : c.isDigit = true :=
  Nat.isDigit_of_mem_toDigits (by decide) (by decide) h

/-- Zeros at the end of the fraction add nothing. -/
theorem ofDigitChars_trimmed {places : Nat} (h : places ≤ cs.length) :
    let fraction := (cs.drop (cs.length - places)).rdropWhile (· = '0')
    (ofDigitChars 10 (cs.take (cs.length - places) ++ fraction) 0 : ℚ) / 10 ^ fraction.length
      = ofDigitChars 10 cs 0 / 10 ^ places := by
  intro fraction
  obtain ⟨n, hzeros⟩ : ∃ n, cs.drop (cs.length - places) = fraction ++ List.replicate n '0' := by
    have hall : ∀ c ∈ (cs.drop (cs.length - places)).rtakeWhile (· = '0'), c = '0' :=
      fun c hc => of_decide_eq_true (mem_rtakeWhile_imp (p := (· = '0')) hc)
    exact ⟨_, rdropWhile_append_rtakeWhile.symm.trans (congrArg _ (eq_replicate_of_mem hall))⟩
  have hlength : places = fraction.length + n := by
    have hlength := congrArg List.length hzeros
    rw [length_drop, length_append, length_replicate] at hlength
    omega
  conv_rhs => rw [← take_append_drop (cs.length - places) cs, hzeros, ← append_assoc, Nat.ofDigitChars_append,
    Nat.ofDigitChars_replicate_zero]
  rw [hlength, pow_add]
  push_cast
  field_simp

/-- A decimal is written in digits with at most one point, and these stand for its value. -/
theorem exists_digits_positional (d : Decimal) : ∃ cs ds, (∀ c ∈ cs ++ ds, c.isDigit = true) ∧
    d.positional.toList = (if ds = [] then cs else cs ++ '.' :: ds) ∧
    (ofDigitChars 10 (cs ++ ds) 0 : ℚ) / 10 ^ ds.length = d.value := by
  have hzeros : ∀ {k c}, c ∈ List.replicate k '0' → c.isDigit = true := fun hc => eq_of_mem_replicate hc ▸ rfl
  simp only [positional, Nat.toString_eq_ofList_toDigits]
  split
  · rename_i hexponent
    obtain ⟨k, hk⟩ := Int.eq_ofNat_of_zero_le hexponent
    have hvalue : d.value = ((10 ^ k * d.digits : Nat) : ℚ) := by
      rw [value, hk, zpow_natCast, mul_comm]
      push_cast
      rfl
    rw [hk, Int.toNat_natCast]
    split
    · rename_i hzero
      refine ⟨toDigits 10 d.digits, [], by simpa using fun c => isDigit_of_mem_toDigits, by simp, ?_⟩
      rw [append_nil, Nat.ofDigitChars_ten_toDigits, hvalue]
      simp [hzero]
    · refine ⟨toDigits 10 d.digits ++ List.replicate k '0', [], ?_, by simp [toList_pushn], ?_⟩
      · rw [append_nil]
        exact fun c hc => (mem_append.mp hc).elim isDigit_of_mem_toDigits hzeros
      · simp [hvalue, Nat.ofDigitChars_append, Nat.ofDigitChars_replicate_zero]
  · rename_i hexponent
    obtain ⟨places, hplaces⟩ := Int.eq_ofNat_of_zero_le (neg_nonneg.mpr (not_le.mp hexponent).le)
    rw [hplaces, Int.toNat_natCast]
    generalize hpadded : List.replicate (places + 1 - (toDigits 10 d.digits).length) '0'
      ++ toDigits 10 d.digits = padded
    have hchars : ("".pushn '0' (places + 1 - (String.ofList (toDigits 10 d.digits)).length)
        ++ String.ofList (toDigits 10 d.digits)).toList = padded := by
      simp [toList_pushn, ← hpadded]
    have hlength : places ≤ padded.length := by
      rw [← hpadded, length_append, length_replicate]
      omega
    have hdigits : ∀ c ∈ padded, c.isDigit = true := by
      rw [← hpadded]
      exact fun c hc => (mem_append.mp hc).elim hzeros isDigit_of_mem_toDigits
    have hnumber : ofDigitChars 10 padded 0 = d.digits := by
      rw [← hpadded, Nat.ofDigitChars_append, Nat.ofDigitChars_replicate_zero, mul_zero, Nat.ofDigitChars_ten_toDigits]
    rw [← String.length_toList, hchars]
    refine ⟨padded.take (padded.length - places),
      (padded.drop (padded.length - places)).rdropWhile (· = '0'), ?_, ?_, ?_⟩
    · intro c hc
      rcases mem_append.mp hc with hc | hc
      · exact hdigits c (mem_of_mem_take hc)
      · have hkept := rdropWhile_prefix (· = '0') (padded.drop (padded.length - places))
        exact hdigits c (mem_of_mem_drop (hkept.subset hc))
    · rw [apply_ite String.toList]
      simp [List.rdropWhile]
    · rw [ofDigitChars_trimmed hlength, hnumber, value, ← neg_neg d.exponent, hplaces, zpow_neg, zpow_natCast,
        div_eq_mul_inv]

theorem readUnsigned_positional (d : Decimal) : readUnsigned d.positional.toList = d.value := by
  obtain ⟨cs, ds, hdigits, htext, hvalue⟩ := d.exists_digits_positional
  rw [htext, readUnsigned_digits hdigits, hvalue]

private theorem readUnsigned_repr (n : Nat) : readUnsigned n.repr.toList = n := by
  have h := @readUnsigned_digits (toDigits 10 n) [] (by simpa using fun c => isDigit_of_mem_toDigits)
  simpa [Nat.repr_eq_ofList_toDigits] using h

theorem read_minus (t : String) : read ("-" ++ t) = -readUnsigned t.toList := by simp [read]

theorem read_of_unsigned {t : String} (h : '-' ∉ t.toList) : read t = readUnsigned t.toList :=
  if_neg fun hhead => h (mem_of_mem_head? hhead)

private theorem read_positional (d : Decimal) : read d.positional = d.value := by
  rw [read_of_unsigned, readUnsigned_positional]
  obtain ⟨cs, ds, hdigits, htext, -⟩ := d.exists_digits_positional
  have hminus : '-' ∉ cs ++ ds := fun h => absurd (hdigits _ h) (by decide)
  rw [htext]
  split <;> simp_all

private theorem read_toString (k : Int) : read (toString k) = k := by
  rw [show toString k = k.repr from rfl, Int.repr_eq_if]
  split
  · rename_i hk
    rw [read_of_unsigned, readUnsigned_repr]
    · exact_mod_cast congrArg (Int.cast (R := ℚ)) (Int.toNat_of_nonneg hk)
    · rw [Nat.repr_eq_ofList_toDigits, String.toList_ofList]
      exact fun h => absurd (isDigit_of_mem_toDigits h) (by decide)
  · rename_i hk
    rw [read_minus, readUnsigned_repr]
    have h := congrArg (Int.cast (R := ℚ)) (Int.toNat_of_nonneg (neg_nonneg.mpr (not_le.mp hk).le))
    push_cast at h
    rw [h, neg_neg]

end Decimal

/-! ### Numbers in a listing -/

private theorem Magnitude.value_of_whole? {m : Magnitude} {k : Nat} (h : m.whole? = some k) : m.value = k := by
  simp only [whole?] at h
  rw [value, ← Nat.cast_two, Decimal.zpow_eq_div two_ne_zero]
  split at h
  · rename_i hexponent
    rw [Int.toNat_eq_zero.mpr (neg_nonpos.mpr hexponent)]
    simpa using congrArg (Nat.cast (R := ℚ)) (Option.some.inj h)
  · rename_i hexponent
    rw [Int.toNat_eq_zero.mpr (not_le.mp hexponent).le]
    split at h
    · rename_i hdvd
      have hpos : ((Nat.pow 2 (-m.exponent).toNat : Nat) : ℚ) ≠ 0 := Nat.cast_ne_zero.mpr (Nat.pow_pos (by decide)).ne'
      rw [← Option.some.inj h, Nat.cast_div (Nat.dvd_of_mod_eq_zero hdvd) hpos]
      simp [div_eq_mul_inv]
    · cases h

namespace Number

/-- The rational number that a finite number is. -/
def value (n : Number) : ℚ := if n.isNegative then -n.magnitude.value else n.magnitude.value

/-- The value, or the end of the range of 64-bit integers that it is beyond. -/
def clamped (n : Number) : ℚ := max (-2 ^ 63) (min (2 ^ 63 - 1) n.value)

def Covers (n : Number) (x : ℚ) : Prop := n.magnitude.Covers (if n.isNegative then -x else x)

variable {a b n : Number} {k : Int} {x : ℚ}

theorem isCanonical_magnitude (h : n.isFinite = true) : n.magnitude.IsCanonical := by
  have hfraction : n.fraction < 2 ^ 52 := Nat.mod_lt _ (by decide)
  have hfield : n.exponentField < 2047 := by simpa [isFinite] using h
  unfold magnitude
  split
  · exact ⟨by simp only; omega, by simp, by simp, by simp⟩
  · constructor <;> simp only [Nat.pow_eq] <;> omega

theorem covers_value (n : Number) : n.Covers n.value := by
  unfold Covers value
  split <;> simpa using n.magnitude.covers_value

theorem value_of_whole? (h : n.whole? = some k) : n.value = k := by
  unfold whole? at h
  split at h
  · obtain ⟨_, hw, rfl⟩ := Option.map_eq_some_iff.mp h
    obtain ⟨w, hm, ⟨⟩⟩ := Option.bind_eq_some_iff.mp hw
    rw [value, Magnitude.value_of_whole? hm]
    split <;> simp
  · cases h

theorem clamped_of_whole? (h : n.whole? = some k) : n.clamped = clampInt64 k := by
  rw [clamped, value_of_whole? h, clampInt64]
  push_cast
  norm_num

theorem clamped_eq_value (h : |n.clamped| < 2 ^ 53 ∨ |n.value| < 2 ^ 53) : n.clamped = n.value := by
  rw [abs_lt, abs_lt] at h
  unfold clamped at h ⊢
  rcases max_cases (-2 ^ 63) (min (2 ^ 63 - 1) n.value) with ⟨hmax, _⟩ | ⟨hmax, _⟩ <;>
    rcases min_cases (2 ^ 63 - 1) n.value with ⟨hmin, _⟩ | ⟨hmin, _⟩ <;> rw [hmax] at h ⊢ <;> grind

theorem fraction_of_whole? (h : n.isFinite = true) (hwhole : n.whole? = none) :
    n.magnitude.exponent < 0 ∧ 0 < n.magnitude.significand := by
  have hnone : n.magnitude.whole? = none := by
    rw [whole?, if_pos h] at hwhole
    cases hcase : n.magnitude.whole? <;> simp_all
  simp only [Magnitude.whole?] at hnone
  split at hnone
  · cases hnone
  · rename_i hexponent
    exact ⟨not_le.mp hexponent, Nat.pos_of_ne_zero fun hzero => by simp [hzero] at hnone⟩

theorem abs_lt_of_covers (h : n.isFinite = true) (hwhole : n.whole? = none) (hx : n.Covers x) : |x| < 2 ^ 53 := by
  have hlt := Magnitude.Covers.lt hx (isCanonical_magnitude h) (fraction_of_whole? h hwhole).1
  have hnonneg := Magnitude.Covers.nonneg hx
  rw [abs_lt]
  split_ifs at hlt hnonneg <;> constructor <;> linarith

theorem text_of_isFinite (h : n.isFinite = true) :
    n.text = (if n.isNegative then "-" else "") ++ (Decimal.shortest n.magnitude).positional := by
  have hnan : n.isNaN = false := by
    simp only [isNaN, isFinite, decide_eq_true_eq] at h ⊢
    simp [h.ne]
  simp only [text, hnan, h, if_true, Bool.false_eq_true, if_false]

theorem covers_text (h : n.isFinite = true) (hwhole : n.whole? = none) : n.Covers (Decimal.read n.listed) := by
  have hcovers := Decimal.covers_shortest (isCanonical_magnitude h) (fraction_of_whole? h hwhole).2
  rw [listed, hwhole, text_of_isFinite h]
  unfold Covers
  split
  · rw [Decimal.read_minus, Decimal.readUnsigned_positional, neg_neg]
    exact hcovers
  · rw [String.empty_append, Decimal.read_positional]
    exact hcovers

/-- No rational number rounds to two numbers, if one of these has a fraction. -/
theorem eq_of_covers (ha : a.isFinite = true) (hb : b.isFinite = true) (hwhole : b.whole? = none) (h : a.Covers x)
    (h' : b.Covers x) : a.isNegative = b.isNegative ∧ a.magnitude = b.magnitude := by
  by_cases hsign : a.isNegative = b.isNegative
  · unfold Covers at h'
    rw [← hsign] at h'
    exact ⟨hsign, Magnitude.Covers.eq h h' (isCanonical_magnitude ha) (isCanonical_magnitude hb)⟩
  · have hx : x = 0 := by
      have h1 := Magnitude.Covers.nonneg h
      have h₂ := Magnitude.Covers.nonneg h'
      cases hna : a.isNegative <;> cases hnb : b.isNegative <;> simp_all <;> linarith
    have hzero : b.magnitude.Covers 0 := by simpa [Covers, hx] using h'
    have hpos := (fraction_of_whole? hb hwhole).2
    exact absurd hzero.eq_zero (mul_pos (Nat.cast_pos.mpr hpos) (by positivity)).ne'

theorem covers_clamped (h : n.isFinite = true) (hwhole : n.whole? = none) : n.Covers n.clamped := by
  rw [clamped_eq_value (.inr (abs_lt_of_covers h hwhole n.covers_value))]
  exact n.covers_value

theorem listed_of_whole? (h : n.whole? = some k) : n.listed = toString (clampInt64 k) := by
  rw [listed, h]

theorem read_listed (h : n.whole? = some k) : Decimal.read n.listed = n.clamped := by
  rw [listed_of_whole? h, Decimal.read_toString, clamped_of_whole? h]

private theorem ne_of_whole? (ha : a.isFinite = true) (hb : b.isFinite = true) (hk : a.whole? = some k)
    (hwhole : b.whole? = none) : a.listed ≠ b.listed ∧ a.clamped ≠ b.clamped := by
  have hnot : ¬b.Covers a.clamped := by
    intro h
    rw [clamped_eq_value (.inl (abs_lt_of_covers hb hwhole h))] at h
    have hsame := eq_of_covers ha hb hwhole a.covers_value h
    have heq : a.whole? = b.whole? := by simp only [whole?, ha, hb, hsame.1, hsame.2]
    cases hk.symm.trans (heq.trans hwhole)
  refine ⟨fun heq => hnot ?_, fun heq => hnot ?_⟩
  · rw [← read_listed hk, heq]
    exact covers_text hb hwhole
  · rw [heq]
    exact covers_clamped hb hwhole

/-- Two finite numbers are listed alike if and only if they have the same value, or both lie beyond the same end of
the range of 64-bit integers. -/
theorem listed_eq_iff (ha : a.isFinite = true) (hb : b.isFinite = true) :
    a.listed = b.listed ↔ a.clamped = b.clamped := by
  cases hwa : a.whole? with
  | some k =>
    cases hwb : b.whole? with
    | some j =>
      refine ⟨fun heq => by rw [← read_listed hwa, ← read_listed hwb, heq], fun heq => ?_⟩
      rw [clamped_of_whole? hwa, clamped_of_whole? hwb, Int.cast_inj] at heq
      rw [listed_of_whole? hwa, listed_of_whole? hwb, heq]
    | none => exact iff_of_false (ne_of_whole? ha hb hwa hwb).1 (ne_of_whole? ha hb hwa hwb).2
  | none =>
    cases hwb : b.whole? with
    | some j => exact iff_of_false (ne_of_whole? hb ha hwb hwa).1.symm (ne_of_whole? hb ha hwb hwa).2.symm
    | none =>
      refine ⟨fun heq => ?_, fun heq => ?_⟩
      · have hsame := eq_of_covers ha hb hwb (heq ▸ covers_text ha hwa) (covers_text hb hwb)
        rw [clamped, clamped, value, value, hsame.1, hsame.2]
      · have hsame := eq_of_covers ha hb hwb (heq ▸ covers_clamped ha hwa) (covers_clamped hb hwb)
        rw [listed, listed, hwa, hwb]
        simp only [text_of_isFinite ha, text_of_isFinite hb, hsame.1, hsame.2]

end Number

/-- In listings, two finite numbers have the same text if and only if they have the same value, or both lie beyond
the same end of the range of 64-bit integers. -/
theorem Code.constantText_eq_iff {code code' : Code} {i j : Nat} {a b : Number}
    (hi : code.constants[i]? = some (.number a)) (hj : code'.constants[j]? = some (.number b))
    (ha : a.isFinite = true) (hb : b.isFinite = true) :
    code.constantText i = code'.constantText j ↔ a.clamped = b.clamped := by
  rw [constantText, constantText, hi, hj]
  exact Number.listed_eq_iff ha hb

/-- `2 ^ 63` and `2 ^ 64` in one listing. -/
theorem Code.constantText_eq_iff_beyond :
    ∃ (code : Code) (a b : Number), code.constants[0]? = some (.number a) ∧ code.constants[1]? = some (.number b) ∧
      a.value = 2 ^ 63 ∧ b.value = 2 ^ 64 ∧ code.constantText 0 = code.constantText 1 := by
  have ha : (⟨0x43E0000000000000⟩ : Number).value = 2 ^ 63 := by
    rw [Number.value_of_whole? (k := 2 ^ 63) (by decide)]
    norm_num
  have hb : (⟨0x43F0000000000000⟩ : Number).value = 2 ^ 64 := by
    rw [Number.value_of_whole? (k := 2 ^ 64) (by decide)]
    norm_num
  refine ⟨⟨#[], #[], #[.number ⟨0x43E0000000000000⟩, .number ⟨0x43F0000000000000⟩]⟩, _, _, rfl, rfl, ha, hb, ?_⟩
  rw [Code.constantText_eq_iff rfl rfl (by decide) (by decide), Number.clamped, Number.clamped, ha, hb]
  norm_num

end Mudscript
