import ScriptMin.Proofs.Token.Quoting

/-!
Reading number literals back. The three written forms of a number are instances of one
numeral: digits, perhaps a point with more digits, perhaps an exponent. The scanner takes a
whole numeral off a text unless the text behind it goes on with something that belongs to a
number.
-/

namespace ScriptMin

open Text Lexeme

structure DecimalForm where
  whole : List Char
  fraction : Option (List Char)
  exponent : Option Int

namespace DecimalForm

def fractionText (n : DecimalForm) : List Char := n.fraction.elim [] ('.' :: ·)

def exponentText (n : DecimalForm) : List Char := n.exponent.elim [] ('e' :: integerText ·)

def text (n : DecimalForm) : List Char := n.whole ++ (n.fractionText ++ n.exponentText)

def fractionDigits (n : DecimalForm) : List Char := n.fraction.getD []

def value (n : DecimalForm) : Number :=
  .ofDecimal (digitsValue 10 (n.whole ++ n.fractionDigits))
    (n.exponent.getD 0 - n.fractionDigits.length)

/-- A numeral is made of digits, and does not look like an octal literal. -/
structure WellFormed (n : DecimalForm) : Prop where
  whole_digits : ∀ c ∈ n.whole, c.isDigit
  fraction_digits : ∀ c ∈ n.fractionDigits, c.isDigit
  some_digits : n.whole ≠ [] ∨ n.fractionDigits ≠ []
  some_fraction : n.fraction ≠ some []
  no_octal : n.whole.head? = some '0' → n.whole = ['0']

/-- Whether a numeral has no point and no exponent, so that a point behind it would
become a part of it. -/
def isBare (n : DecimalForm) : Bool := n.fraction.isNone && n.exponent.isNone

/-- A text that does not go on with the numeral before it. -/
structure Stops (n : DecimalForm) (rest : List Char) : Prop where
  no_digit : ∀ c ∈ rest.head?, c.isDigit = false
  no_name : ∀ c ∈ rest.head?, isNameStart c = false
  no_point : n.isBare → rest.head? ≠ some '.'

end DecimalForm

/-! ### Character classes -/

theorem isNamePart_of_isDigit {c : Char} (h : c.isDigit) : isNamePart c := by
  have hlow : c.toNat < 128 := by
    simp only [Char.isDigit, Bool.and_eq_true, decide_eq_true_eq] at h
    have := UInt32.le_iff_toNat_le.mp h.2
    show c.val.toNat < 128
    exact Nat.lt_of_le_of_lt this (by decide)
  simp [isNamePart, isAlphanumeric, isNumeric, hlow, h]

theorem isNamePart_of_isNameStart {c : Char} (h : isNameStart c) : isNamePart c := by
  simp only [isNameStart, isNamePart, isAlphanumeric, Bool.or_eq_true] at h ⊢
  grind

theorem ne_of_isDigit {c : Char} (h : c.isDigit) :
    isBlank c = false ∧ isLineBreak c = false ∧ ¬ (c = '"' ∨ c = '\'') ∧ c ≠ '/' := by
  have signs : ∀ d ∈ [' ', '\t', '\x0b', '\x0c', '\u00a0', '\ufeff', '\n', '\r', '\u2028',
      '\u2029', '"', '\'', '/'], !d.isDigit := List.all_eq_true.mp (by decide)
  have hne : ∀ d ∈ [' ', '\t', '\x0b', '\x0c', '\u00a0', '\ufeff', '\n', '\r', '\u2028',
      '\u2029', '"', '\'', '/'], c ≠ d := by
    rintro d hd rfl
    exact absurd h (by simpa using signs c hd)
  simp only [List.forall_mem_cons] at hne
  simp [isBlank, isLineBreak, hne]

namespace Lexeme

theorem digitRun_append {digits rest : List Char} (hdigits : ∀ c ∈ digits, c.isDigit)
    (hrest : ∀ c ∈ rest.head?, c.isDigit = false) : digitRun (digits ++ rest) = digits := by
  rw [digitRun, List.takeWhile_append_of_pos hdigits]
  cases rest with
  | nil => simp
  | cons c rest =>
      have hc : c.isDigit = false := hrest c rfl
      simp [hc]

theorem digitRun_eq_nil {text : List Char} (h : ∀ c ∈ text.head?, c.isDigit = false) :
    digitRun text = [] :=
  digitRun_append (List.forall_mem_nil _) h

theorem exponentPart_eq_zero {text : List Char} (h : ∀ c ∈ text.head?, isNameStart c = false) :
    exponentPart text = (0, 0) := by
  cases text with
  | nil => rfl
  | cons c text =>
      have hc : isNameStart c = false := h c rfl
      have hmark : ¬ (c = 'e' ∨ c = 'E') := by
        rintro (rfl | rfl)
        · exact absurd hc (by decide)
        · exact absurd hc (by decide)
      simp only [exponentPart, hmark, if_false]

theorem exponentPart_integerText (k : Int) {rest : List Char}
    (h : ∀ c ∈ rest.head?, c.isDigit = false) :
    exponentPart ('e' :: integerText k ++ rest) = (('e' :: integerText k).length, k) := by
  have hdigits : ∀ c ∈ Nat.toDigits 10 k.natAbs, c.isDigit :=
    fun c hc => Nat.isDigit_of_mem_toDigits (by decide) (by decide) hc
  have hrun := digitRun_append hdigits h
  have hvalue := digitsValue_toDigits 10 (by decide) k.natAbs
  have hne : (Nat.toDigits 10 k.natAbs).isEmpty = false := by
    simp [Nat.toDigits_ne_nil]
  unfold integerText
  split
  case isTrue hneg =>
      have hk : -(k.natAbs : Int) = k := by omega
      simp only [exponentPart, ↓Char.isValue, List.cons_append, Char.reduceEq, or_false, ↓reduceIte,
        List.drop_succ_cons, List.drop_zero, hrun, hne, Bool.false_eq_true, hvalue, hk,
        List.length_cons, Prod.mk.injEq, and_true]
      omega
  case isFalse hpos =>
      have hnil : Nat.toDigits 10 k.natAbs ≠ [] := Nat.toDigits_ne_nil
      obtain ⟨first, digits, hsplit⟩ := List.exists_cons_of_ne_nil hnil
      have hfirst : first.isDigit := hdigits first (by simp [hsplit])
      have hplus : first ≠ '+' := by rintro rfl; exact absurd hfirst (by decide)
      have hminus : first ≠ '-' := by rintro rfl; exact absurd hfirst (by decide)
      rw [hsplit] at hrun hvalue ⊢
      simp only [exponentPart, List.cons_append, true_or, if_true] at hrun ⊢
      split
      case h_1 heq => exact absurd (List.cons.inj heq).1 hplus
      case h_2 heq => exact absurd (List.cons.inj heq).1 hminus
      case h_3 =>
          simp [hrun, hvalue]
          omega

end Lexeme

/-! ### Numerals -/

namespace DecimalForm

variable {n : DecimalForm} {rest : List Char}

/-- What cannot go on a name does not go on a numeral either, a point apart. -/
theorem stops_of_not_isNamePart (hname : ∀ c ∈ rest.head?, isNamePart c = false)
    (hpoint : n.isBare → rest.head? ≠ some '.') : n.Stops rest where
  no_digit c hc := by
    cases hdigit : c.isDigit with
    | false => rfl
    | true => exact absurd (isNamePart_of_isDigit hdigit) (by simp [hname c hc])
  no_name c hc := by
    cases hstart : isNameStart c with
    | false => rfl
    | true => exact absurd (isNamePart_of_isNameStart hstart) (by simp [hname c hc])
  no_point := hpoint

theorem exponentPart_exponentText (h : n.Stops rest) :
    exponentPart (n.exponentText ++ rest) = (n.exponentText.length, n.exponent.getD 0) := by
  unfold exponentText
  cases n.exponent with
  | none => exact exponentPart_eq_zero h.no_name
  | some k => exact exponentPart_integerText k h.no_digit

theorem no_digit_exponentText (h : n.Stops rest) :
    ∀ c ∈ (n.exponentText ++ rest).head?, c.isDigit = false := by
  unfold exponentText
  cases n.exponent with
  | none => exact h.no_digit
  | some k =>
      rintro c hc
      cases hc
      rfl

theorem no_digit_fractionText (h : n.Stops rest) :
    ∀ c ∈ (n.fractionText ++ (n.exponentText ++ rest)).head?, c.isDigit = false := by
  unfold fractionText
  cases n.fraction with
  | none => exact no_digit_exponentText h
  | some digits =>
      rintro c hc
      cases hc
      rfl

theorem no_point_exponentText (h : n.Stops rest) (hfraction : n.fraction = none) :
    (n.exponentText ++ rest).head? ≠ some '.' := by
  unfold exponentText
  cases hexponent : n.exponent with
  | none => exact h.no_point (by simp [isBare, hfraction, hexponent])
  | some k => simp

/-- A numeral is taken off the text as a whole. -/
theorem decimal_text_append (hn : n.WellFormed) (h : n.Stops rest) :
    decimal (n.text ++ rest) = (n.value, n.text.length) := by
  have hwhole := digitRun_append hn.whole_digits (no_digit_fractionText h)
  have hexponent := exponentPart_exponentText h
  simp only [decimal, text, List.append_assoc, hwhole, List.drop_left]
  cases hfraction : n.fraction with
  | none =>
      have htext : n.fractionText = [] := by simp [fractionText, hfraction]
      have hpoint := no_point_exponentText h hfraction
      have hrun := digitRun_eq_nil (no_digit_exponentText h)
      simp only [htext, List.nil_append, hpoint, if_false, List.drop_zero, hrun, Nat.add_zero,
        List.length_nil, List.drop_left, hexponent, value, fractionDigits, hfraction,
        Option.getD_none, List.length_append]
  | some digits =>
      have htext : n.fractionText = '.' :: digits := by simp [fractionText, hfraction]
      have hdigits : ∀ c ∈ digits, c.isDigit := by
        simpa [fractionDigits, hfraction] using hn.fraction_digits
      have hrun := digitRun_append hdigits (no_digit_exponentText h)
      have hdrop : (n.whole ++ '.' :: (digits ++ (n.exponentText ++ rest))).drop
          (n.whole.length + 1 + digits.length) = n.exponentText ++ rest := by
        rw [Nat.add_assoc, List.drop_append, List.drop_of_length_le (by omega)]
        simp [Nat.add_comm 1]
      simp only [htext, hdrop, List.cons_append, List.head?_cons, if_true, List.drop_one,
        List.tail_cons, hrun, hexponent, value, fractionDigits, hfraction, Option.getD_some,
        List.length_append, List.length_cons]
      congr 1
      omega

theorem no_hex_fractionText (h : n.Stops rest) {c : Char} (hc : c = 'x' ∨ c = 'X') :
    (n.fractionText ++ (n.exponentText ++ rest)).head? ≠ some c := by
  have hstart : isNameStart c := by
    rcases hc with rfl | rfl <;> decide
  intro heq
  unfold fractionText exponentText at heq
  cases hfraction : n.fraction with
  | some digits =>
      rcases hc with rfl | rfl <;> simp [hfraction] at heq
  | none =>
      cases hexponent : n.exponent with
      | some k => rcases hc with rfl | rfl <;> simp [hfraction, hexponent] at heq
      | none =>
          simp only [hfraction, hexponent, Option.elim_none, List.nil_append] at heq
          exact absurd (h.no_name c heq) (by simp [hstart])

theorem WellFormed.tail_of_zero (hn : n.WellFormed) {tail : List Char}
    (heq : n.text ++ rest = '0' :: tail) :
    tail = n.fractionText ++ (n.exponentText ++ rest) := by
  rw [text, List.append_assoc, List.append_assoc] at heq
  cases hwhole : n.whole with
  | cons c whole =>
      rw [hwhole] at heq
      cases heq
      have hzero := hn.no_octal (by simp [hwhole])
      rw [hwhole, List.cons.injEq] at hzero
      simp [hzero.2]
  | nil =>
      have hne := hn.some_digits.resolve_left (by simp [hwhole])
      cases hfraction : n.fraction with
      | none => exact absurd (by simp [fractionDigits, hfraction]) hne
      | some digits =>
          simp [hwhole, fractionText, hfraction] at heq

/-- A numeral is scanned as a decimal literal. -/
theorem number_text_append (hn : n.WellFormed) (h : n.Stops rest) :
    number (n.text ++ rest) = .ok (n.value, n.text.length) := by
  have hname : rest.head?.any isNameStart = false := by
    cases rest with
    | nil => rfl
    | cons c rest => simp [h.no_name c rfl]
  unfold number
  simp only [decimal_text_append hn h, List.drop_left, hname]
  split
  case h_1 tail heq =>
      -- Only a lone zero starts with one, and nothing behind it makes it octal or hexadecimal.
      obtain rfl := hn.tail_of_zero heq
      have hrun := digitRun_eq_nil (no_digit_fractionText h)
      simp only [no_hex_fractionText h (.inl rfl), no_hex_fractionText h (.inr rfl), hrun,
        or_self, if_false, List.isEmpty_nil, true_or, if_true]
      rfl
  case h_2 => rfl

theorem text_starts (hn : n.WellFormed) :
    ∃ c tail, n.text = c :: tail ∧ (c.isDigit ∨ c = '.' ∧ tail.head?.any Char.isDigit) := by
  cases hwhole : n.whole with
  | cons c whole =>
      refine ⟨c, whole ++ (n.fractionText ++ n.exponentText), ?_,
        .inl (hn.whole_digits c (by simp [hwhole]))⟩
      simp [text, hwhole]
  | nil =>
      have hne := hn.some_digits.resolve_left (by simp [hwhole])
      obtain ⟨d, digits, hdigits⟩ := List.exists_cons_of_ne_nil hne
      have hfraction : n.fraction = some (d :: digits) := by
        cases hfraction : n.fraction with
        | none => simp [fractionDigits, hfraction] at hdigits
        | some found => simpa [fractionDigits, hfraction] using hdigits
      refine ⟨'.', d :: (digits ++ n.exponentText), ?_, .inr ⟨rfl, ?_⟩⟩
      · simp [text, hwhole, fractionText, hfraction]
      · simpa using hn.fraction_digits d (by simp [hdigits])

theorem scan_text_append (operand : Bool) (hn : n.WellFormed) (h : n.Stops rest) :
    scan operand (n.text ++ rest) = .ok (plain (.number n.value) n.text.length) := by
  have hnumber := number_text_append hn h
  obtain ⟨c, tail, htext, hc⟩ := text_starts hn
  have hplain : isLineBreak c = false ∧ ¬ (c = '"' ∨ c = '\'') := by
    rcases hc with hc | ⟨rfl, -⟩
    · exact ⟨(ne_of_isDigit hc).2.1, (ne_of_isDigit hc).2.2.1⟩
    · decide
  have hc' : c.isDigit ∨ c = '.' ∧ (tail ++ rest).head?.any Char.isDigit := by
    refine hc.imp_right fun ⟨heq, hdigit⟩ => ⟨heq, ?_⟩
    cases tail with
    | nil => cases hdigit
    | cons d tail => exact hdigit
  rw [htext, List.cons_append] at hnumber ⊢
  simp only [scan, hplain.1, hplain.2, hc', hnumber, if_true, if_false, Bool.false_eq_true]
  rfl

theorem isDigit_getLast_text (hn : n.WellFormed) : ∀ c ∈ n.text.getLast?, c.isDigit := by
  intro c hc
  -- The text ends with digits: those of the exponent, the fraction or the whole part.
  have hlast : ∀ front digits : List Char, n.text = front ++ digits → digits ≠ [] →
      (∀ d ∈ digits, d.isDigit) → c.isDigit := by
    intro front digits htext hne hdigits
    rw [htext, List.getLast?_append, List.getLast?_eq_some_getLast hne, Option.some_or,
      ← List.getLast?_eq_some_getLast] at hc
    exact hdigits c (List.mem_of_getLast? hc)
  have hexp : ∀ m, ∀ d ∈ Nat.toDigits 10 m, d.isDigit :=
    fun m d hd => Nat.isDigit_of_mem_toDigits (by decide) (by decide) hd
  cases hexponent : n.exponent with
  | some k =>
      by_cases hneg : k < 0
      · refine hlast (n.whole ++ (n.fractionText ++ ['e', '-'])) _ ?_ Nat.toDigits_ne_nil
          (hexp k.natAbs)
        simp [text, exponentText, hexponent, integerText, hneg]
      · refine hlast (n.whole ++ (n.fractionText ++ ['e'])) _ ?_ Nat.toDigits_ne_nil
          (hexp k.natAbs)
        simp [text, exponentText, hexponent, integerText, hneg]
  | none =>
      cases hfraction : n.fraction with
      | some digits =>
          refine hlast (n.whole ++ ['.']) digits ?_ ?_ ?_
          · simp [text, exponentText, fractionText, hexponent, hfraction]
          · rintro rfl
            exact hn.some_fraction hfraction
          · simpa [fractionDigits, hfraction] using hn.fraction_digits
      | none =>
          have htext : n.text = n.whole := by
            simp [text, exponentText, fractionText, hexponent, hfraction]
          rw [htext] at hc
          exact hn.whole_digits c (List.mem_of_getLast? hc)

theorem mem_text (hn : n.WellFormed) {c : Char} (hc : c ∈ n.text) :
    c.isDigit ∨ c ∈ ['.', 'e', '-'] := by
  rw [text, List.mem_append, List.mem_append] at hc
  rcases hc with hc | hc | hc
  · exact .inl (hn.whole_digits c hc)
  · unfold fractionText at hc
    cases hfraction : n.fraction with
    | none => simp [hfraction] at hc
    | some digits =>
        rw [hfraction, Option.elim_some, List.mem_cons] at hc
        rcases hc with rfl | hc
        · exact .inr (by decide)
        · exact .inl (hn.fraction_digits c (by simpa [fractionDigits, hfraction] using hc))
  · unfold exponentText at hc
    cases hexponent : n.exponent with
    | none => simp [hexponent] at hc
    | some k =>
        have hdigit : ∀ m, c ∈ Nat.toDigits 10 m → c.isDigit :=
          fun m hc => Nat.isDigit_of_mem_toDigits (by decide) (by decide) hc
        simp only [hexponent, Option.elim_some, List.mem_cons, integerText] at hc
        rcases hc with rfl | hc
        · exact .inr (by decide)
        · split at hc
          · rcases List.mem_cons.mp hc with rfl | hc
            · exact .inr (by decide)
            · exact .inl (hdigit _ hc)
          · exact .inl (hdigit _ hc)

theorem isBare_eq (hn : n.WellFormed) :
    n.isBare = !n.text.any fun c => c == '.' || c == 'e' := by
  have hdigit : ∀ c : Char, c.isDigit → (c == '.' || c == 'e') = false := by
    intro c hc
    have hpoint : c ≠ '.' := by rintro rfl; exact absurd hc (by decide)
    have hmark : c ≠ 'e' := by rintro rfl; exact absurd hc (by decide)
    simp [hpoint, hmark]
  have hwhole : (n.whole.any fun c => c == '.' || c == 'e') = false := by
    rw [List.any_eq_false]
    intro c hc
    simp [hdigit c (hn.whole_digits c hc)]
  rw [text, List.any_append, hwhole, Bool.false_or, List.any_append]
  unfold isBare fractionText exponentText
  cases n.fraction with
  | some digits => simp
  | none =>
      cases n.exponent with
      | some k => simp
      | none => simp

end DecimalForm

/-! ### Written numbers -/

namespace Number

theorem digits_ne_zero_of_pick {i : Interval} {tie : Tie} {exponent : Int} {d : Decimal}
    (h : i.pick tie exponent = some d) : d.digits ≠ 0 := by
  unfold Interval.pick at h
  split at h
  rename_i step scale hstep
  simp only at h
  split at h
  case h_1 hlower hupper =>
      cases h
      rw [Bool.and_eq_true, bne_iff_ne] at hlower
      show (if _ then _ else _ + 1) ≠ 0
      split
      · exact hlower.2
      · exact Nat.succ_ne_zero _
  case h_2 hlower hupper =>
      cases h
      rw [Bool.and_eq_true, bne_iff_ne] at hlower
      exact hlower.2
  case h_3 =>
      cases h
      exact Nat.succ_ne_zero _
  case h_4 => cases h

theorem digits_ne_zero_of_searchGrids {i : Interval} {tie : Tie} {exponent : Int} {fuel : Nat}
    {d : Decimal} (h : searchGrids i tie exponent fuel = some d) : d.digits ≠ 0 := by
  induction fuel generalizing exponent with
  | zero => cases h
  | succ fuel ih =>
      rw [searchGrids, Option.orElse_apply, Option.orElse_eq_or, Option.or_eq_some_iff] at h
      rcases h with h | ⟨-, h⟩
      · exact digits_ne_zero_of_pick h
      · exact ih h

theorem digits_shortest_ne_zero {v : Number} (h : v.isZero = false) (tie : Tie) :
    (v.shortest tie).digits ≠ 0 := by
  unfold shortest
  cases hsearch : searchGrids v.interval tie v.exponentBound 22 with
  | some d => exact digits_ne_zero_of_searchGrids hsearch
  | none =>
      show v.units ≠ 0
      have hplace : v.lastPlace ≠ 0 := Nat.pos_iff_ne_zero.mp (Nat.pow_pos (by decide))
      have hsignificand : v.significand ≠ 0 := by
        unfold significand
        split
        case isTrue hexponent => simpa [isZero, hexponent] using h
        case isFalse => simp only [stepCount]; omega
      exact Nat.mul_ne_zero hsignificand hplace

end Number

theorem head?_toDigits_ne_zero {n : Nat} (hn : n ≠ 0) :
    (Nat.toDigits 10 n).head? ≠ some '0' := by
  induction n using Nat.strongRecOn with
  | ind n ih =>
      by_cases hlt : n < 10
      · have all : ∀ n < 10, n ≠ 0 → n.digitChar ≠ '0' := by decide
        rw [Nat.toDigits_of_lt_base hlt, List.head?_singleton]
        simpa using all n hlt hn
      · rw [Nat.toDigits_of_base_le (by decide) (by omega), List.head?_append,
          List.head?_eq_some_head Nat.toDigits_ne_nil, Option.some_or,
          ← List.head?_eq_some_head]
        exact ih (n / 10) (by omega) (by omega)

namespace DigitText

variable {t : DigitText}

/-- The text of a decimal that is not zero. -/
structure Significant (t : DigitText) : Prop where
  digits : ∀ c ∈ t.digits, c.isDigit
  ne_nil : t.digits ≠ []
  no_zero : t.digits.head? ≠ some '0'

theorem significant_text {d : Decimal} (h : d.digits ≠ 0) : d.text.Significant where
  digits := fun _ hc => Nat.isDigit_of_mem_toDigits (by decide) (by decide) hc
  ne_nil := Nat.toDigits_ne_nil
  no_zero := head?_toDigits_ne_zero h

theorem isDigit_of_mem_zeros {n : Int} {c : Char} (h : c ∈ zeros n) : c.isDigit := by
  rw [List.eq_of_mem_replicate h]
  rfl

/-- The numeral with the point among the digits. -/
theorem wellFormed_inside (ht : t.Significant) (hpos : 0 < t.point)
    (h : t.point < t.digits.length) : DecimalForm.WellFormed
      ⟨t.digits.take t.point.toNat, some (t.digits.drop t.point.toNat), none⟩ where
  whole_digits := fun c hc => ht.digits c (List.mem_of_mem_take hc)
  fraction_digits := fun c hc => ht.digits c (List.mem_of_mem_drop hc)
  some_digits := by
    left
    simp only [ne_eq, List.take_eq_nil_iff, ht.ne_nil, or_false]
    omega
  some_fraction := by
    simp only [ne_eq, Option.some.injEq, List.drop_eq_nil_iff]
    omega
  no_octal := by
    intro hzero
    rw [List.head?_take, if_neg (by omega)] at hzero
    exact absurd hzero ht.no_zero

/-- The numeral with one digit before the point and an exponent. -/
theorem wellFormed_pointed (ht : t.Significant) {first second : Char} {rest : List Char}
    (h : t.digits = first :: second :: rest) (exponent : Int) :
    DecimalForm.WellFormed ⟨[first], some (second :: rest), some exponent⟩ := by
  have hdigits := ht.digits
  have hzero := ht.no_zero
  rw [h] at hdigits hzero
  exact {
    whole_digits := fun c hc => hdigits c (List.mem_cons.mpr (.inl (List.mem_singleton.mp hc)))
    fraction_digits := fun c hc => hdigits c (List.mem_cons_of_mem first hc)
    some_digits := .inl (by simp)
    some_fraction := by simp
    no_octal := fun hfirst => absurd hfirst hzero }

theorem positional_numeral (ht : t.Significant) :
    ∃ n : DecimalForm, n.WellFormed ∧ t.positional = n.text := by
  unfold positional
  split
  case isTrue hpoint =>
      refine ⟨⟨[], some (zeros (-t.point) ++ t.digits), none⟩,
        ⟨nofun, ?_, .inr ?_, by simp [ht.ne_nil], nofun⟩, ?_⟩
      · intro c hc
        rcases List.mem_append.mp hc with hc | hc
        · exact isDigit_of_mem_zeros hc
        · exact ht.digits c hc
      · simp [DecimalForm.fractionDigits, ht.ne_nil]
      · simp [DecimalForm.text, DecimalForm.fractionText, DecimalForm.exponentText]
  case isFalse hpoint =>
      split
      case isTrue hlt =>
          refine ⟨_, wellFormed_inside ht (by omega) hlt, ?_⟩
          simp [DecimalForm.text, DecimalForm.fractionText, DecimalForm.exponentText]
      case isFalse hlt =>
          refine ⟨⟨t.digits ++ zeros (t.point - t.digits.length), none, none⟩,
            ⟨?_, nofun, .inl ?_, nofun, ?_⟩, ?_⟩
          · intro c hc
            rcases List.mem_append.mp hc with hc | hc
            · exact ht.digits c hc
            · exact isDigit_of_mem_zeros hc
          · simp [ht.ne_nil]
          · intro h
            rw [List.head?_append, List.head?_eq_some_head ht.ne_nil, Option.some_or,
              ← List.head?_eq_some_head] at h
            exact absurd h ht.no_zero
          · simp [DecimalForm.text, DecimalForm.fractionText, DecimalForm.exponentText]

theorem wholeMantissa_numeral (ht : t.Significant) :
    ∃ n : DecimalForm, n.WellFormed ∧ t.wholeMantissa = n.text := by
  refine ⟨⟨t.digits, none, some (t.point - t.digits.length)⟩,
    ⟨ht.digits, nofun, .inl ht.ne_nil, nofun, fun h => absurd h ht.no_zero⟩, ?_⟩
  simp [wholeMantissa, DecimalForm.text, DecimalForm.fractionText, DecimalForm.exponentText]

theorem pointedMantissa_numeral (ht : t.Significant) {text : List Char}
    (h : t.pointedMantissa? = some text) : ∃ n : DecimalForm, n.WellFormed ∧ text = n.text := by
  unfold pointedMantissa? at h
  split at h
  case h_1 first second digits heq =>
      cases h
      refine ⟨_, wellFormed_pointed ht heq (t.point - 1), ?_⟩
      simp [DecimalForm.text, DecimalForm.fractionText, DecimalForm.exponentText]
  case h_2 => cases h

theorem compact_numeral (ht : t.Significant) :
    ∃ n : DecimalForm, n.WellFormed ∧ t.compact = n.text := by
  have hbest : ∃ n : DecimalForm, n.WellFormed ∧ shorter t.positional t.wholeMantissa = n.text := by
    unfold shorter
    split
    · exact wholeMantissa_numeral ht
    · exact positional_numeral ht
  unfold compact
  split
  case h_1 text htext =>
      show ∃ n : DecimalForm, n.WellFormed ∧ shorter _ text = n.text
      rw [shorter]
      split
      · exact pointedMantissa_numeral ht htext
      · exact hbest
  case h_2 => exact hbest

end DigitText

namespace Number

variable {v : Number}

/-- Reading the decimal text of a number gives the number back. -/
def ReadsBack (v : Number) : Prop := (Lexeme.decimal v.literal.toList).1 = v

instance : Decidable v.ReadsBack := inferInstanceAs (Decidable (_ = _))

/-- Whether a point behind the text of a number would become a part of it. -/
def isBareLiteral (v : Number) : Bool :=
  !v.literal.toList.any fun c => c == '.' || c == 'e'

theorem isNaN_of_isFinite (hfinite : v.isFinite) : v.isNaN = false := by
  simp only [isFinite, decide_eq_true_eq] at hfinite
  simp only [isNaN, Bool.and_eq_false_imp, beq_iff_eq]
  omega

theorem literal_numeral (hfinite : v.isFinite) (hsign : v.negative = false) :
    ∃ n : DecimalForm, n.WellFormed ∧ v.literal.toList = n.text := by
  have hnan : v.isNaN = false := isNaN_of_isFinite hfinite
  cases hzero : v.isZero with
  | true =>
      refine ⟨⟨['0'], none, none⟩, ⟨by simp, nofun, .inl (by simp), nofun, fun _ => rfl⟩, ?_⟩
      simp [literal, hzero, DecimalForm.text, DecimalForm.fractionText, DecimalForm.exponentText]
  | false =>
      simp only [literal, String.toList_ofList, hzero, hnan, hfinite, hsign, signed, if_true,
        Bool.false_eq_true, if_false]
      exact DigitText.compact_numeral (DigitText.significant_text (digits_shortest_ne_zero hzero _))

theorem literal_starts (hfinite : v.isFinite) (hsign : v.negative = false) :
    ∃ c tail, v.literal.toList = c :: tail ∧ (c.isDigit ∨ c = '.') := by
  obtain ⟨n, hn, htext⟩ := literal_numeral hfinite hsign
  obtain ⟨c, tail, heq, hc⟩ := n.text_starts hn
  exact ⟨c, tail, htext.trans heq, hc.imp_right And.left⟩

theorem literal_ends (hfinite : v.isFinite) (hsign : v.negative = false) :
    ∀ c ∈ v.literal.toList.getLast?, c.isDigit := by
  obtain ⟨n, hn, htext⟩ := literal_numeral hfinite hsign
  rw [htext]
  exact n.isDigit_getLast_text hn

theorem no_break_of_mem_literal (hfinite : v.isFinite) (hsign : v.negative = false) {c : Char}
    (hc : c ∈ v.literal.toList) : isLineBreak c = false := by
  obtain ⟨n, hn, htext⟩ := literal_numeral hfinite hsign
  rw [htext] at hc
  rcases n.mem_text hn hc with hc | hc
  · exact (ne_of_isDigit hc).2.1
  · have marks : ∀ d ∈ ['.', 'e', '-'], !isLineBreak d := List.all_eq_true.mp (by decide)
    simpa using marks c hc

/-- A written number is scanned as the number, unless a name or a point goes on with it. -/
theorem scan_literal (operand : Bool) (hfinite : v.isFinite) (hsign : v.negative = false)
    (hback : v.ReadsBack) {rest : List Char} (hname : ∀ c ∈ rest.head?, isNamePart c = false)
    (hpoint : v.isBareLiteral → rest.head? ≠ some '.') :
    scan operand (v.literal.toList ++ rest) =
      .ok (plain (.number v) v.literal.toList.length) := by
  obtain ⟨n, hn, htext⟩ := literal_numeral hfinite hsign
  have hbare : n.isBare = v.isBareLiteral := by rw [n.isBare_eq hn, isBareLiteral, htext]
  have hstops : n.Stops rest :=
    DecimalForm.stops_of_not_isNamePart hname fun h => hpoint (hbare ▸ h)
  have hvalue : n.value = v := by
    have hend := DecimalForm.decimal_text_append hn (show n.Stops [] from ⟨nofun, nofun, nofun⟩)
    rw [List.append_nil, ← htext] at hend
    rw [← hback, hend]
  rw [htext, DecimalForm.scan_text_append operand hn hstops, hvalue]

end Number

end ScriptMin
