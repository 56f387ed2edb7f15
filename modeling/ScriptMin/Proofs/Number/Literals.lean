import Mathlib.Data.List.DropRight
import ScriptMin.Proofs.Number.DataText
import ScriptMin.Proofs.Token.Literals

/-!
Number literals are exact and minimal. The printer starts from any decimal literal for the shortest
decimal of a number, takes its significant digits and the position of the point, and writes the
shortest of three forms. The form denotes the same rational number, and the scanner takes it off a
text as one token with the number as its value.
-/

namespace ScriptMin

open Text Lexeme

/-! ### Decimal literals -/

/-- A text is a decimal literal that denotes a rational number. -/
def Denotes (text : List Char) (q : ℚ) : Prop :=
  ∃ n : DecimalForm, n.WellFormed ∧ n.text = text ∧ n.rational = q

namespace DigitText

variable {t : DigitText}

/-- The significant digits of a decimal literal, and where its point stands. The literal may have
zeros at either end of its digits. -/
def ofLiteral (text : List Char) : DigitText :=
  let mantissa := text.takeWhile (· != 'e')
  let exponent := (exponentPart (text.dropWhile (· != 'e'))).2
  let whole := mantissa.takeWhile (· != '.')
  let fraction := (mantissa.dropWhile (· != '.')).drop 1
  let trimmed := (whole ++ fraction).dropWhile (· == '0')
  { digits := trimmed.rdropWhile (· == '0')
    point := whole.length + exponent - ((whole ++ fraction).length - trimmed.length) }

/-- The three forms of a literal, the third one only for more than one digit. -/
def forms (t : DigitText) : List (List Char) :=
  t.positional :: t.wholeMantissa :: t.pointedMantissa?.toList

/-! ### The forms denote the number -/

theorem denotes_positional (ht : t.Significant) : Denotes t.positional t.value := by
  unfold positional
  rcases le_or_gt t.point 0 with hbelow | hpos
  · rw [if_pos hbelow]
    refine ⟨⟨[], some (zeros (-t.point) ++ t.digits), none⟩,
      ⟨by simp, fun _ hc => isDigit_of_mem_zeros_append ht hc, .inr ?_, by simp [ht.ne_nil],
        by simp⟩, ?_, ?_⟩
    · simp [DecimalForm.fractionDigits, ht.ne_nil]
    · simp [DecimalForm.text, DecimalForm.fractionText, DecimalForm.exponentText]
    · have hlength : (zeros (-t.point) ++ t.digits).length = -t.point + t.digits.length := by
        rw [List.length_append, zeros, List.length_replicate]
        omega
      rw [DecimalForm.rational, value, DecimalForm.fractionDigits, Option.getD_some, hlength,
        List.nil_append, zeros, digitsValue_zeros_append, Option.getD_none]
      congr 2
      omega
  · rw [if_neg (by omega)]
    rcases lt_or_ge t.point t.digits.length with hinside | hwhole
    · rw [if_pos hinside]
      refine ⟨_, wellFormed_inside ht hpos hinside, ?_, rational_inside hpos hinside⟩
      simp [DecimalForm.text, DecimalForm.fractionText, DecimalForm.exponentText]
    · rw [if_neg (by omega)]
      refine ⟨⟨t.digits ++ zeros (t.point - t.digits.length), none, none⟩,
        ⟨fun _ hc => isDigit_of_mem_append_zeros ht hc, by simp [DecimalForm.fractionDigits],
          .inl (by simp [ht.ne_nil]), by simp, ?_⟩, ?_, ?_⟩
      · intro hzero
        rw [List.head?_append, List.head?_eq_some_head ht.ne_nil, Option.some_or,
          ← List.head?_eq_some_head] at hzero
        exact absurd hzero ht.no_zero
      · simp [DecimalForm.text, DecimalForm.fractionText, DecimalForm.exponentText]
      · have hpow : (10 : ℚ) ^ (t.point - t.digits.length).toNat =
            10 ^ (t.point - t.digits.length) := by
          rw [← zpow_natCast, Int.toNat_of_nonneg (by omega)]
        have hnone : (10 : ℚ) ^ (0 - (([] : List Char).length : Int)) = 1 := by norm_num
        rw [DecimalForm.rational, value, DecimalForm.fractionDigits, Option.getD_none,
          List.append_nil, zeros, digitsValue_append_zeros, Option.getD_none, hnone]
        push_cast
        rw [hpow, mul_one]

theorem denotes_wholeMantissa (ht : t.Significant) : Denotes t.wholeMantissa t.value := by
  refine ⟨⟨t.digits, none, some (t.point - t.digits.length)⟩,
    ⟨ht.digits, nofun, .inl ht.ne_nil, nofun, fun h => absurd h ht.no_zero⟩, ?_, ?_⟩
  · simp [wholeMantissa, DecimalForm.text, DecimalForm.fractionText, DecimalForm.exponentText]
  · simp [DecimalForm.rational, DecimalForm.fractionDigits, value]

theorem denotes_pointedMantissa (ht : t.Significant) {text : List Char}
    (h : t.pointedMantissa? = some text) : Denotes text t.value := by
  unfold pointedMantissa? at h
  split at h
  case h_1 first second digits heq =>
      cases h
      refine ⟨_, wellFormed_pointed ht heq (t.point - 1), ?_, rational_pointed heq⟩
      simp [DecimalForm.text, DecimalForm.fractionText, DecimalForm.exponentText]
  case h_2 => cases h

theorem denotes_of_mem_forms (ht : t.Significant) {text : List Char} (h : text ∈ t.forms) :
    Denotes text t.value := by
  rw [forms, List.mem_cons, List.mem_cons, Option.mem_toList] at h
  rcases h with rfl | rfl | h
  · exact denotes_positional ht
  · exact denotes_wholeMantissa ht
  · exact denotes_pointedMantissa ht h

/-! ### The shortest form -/

theorem shorter_length (first second : List Char) :
    (shorter first second).length ≤ first.length ∧
      (shorter first second).length ≤ second.length := by
  unfold shorter
  split <;> omega

theorem shorter_mem {first second : List Char} {texts : List (List Char)} (hfirst : first ∈ texts)
    (hsecond : second ∈ texts) : shorter first second ∈ texts := by
  unfold shorter
  split
  · exact hsecond
  · exact hfirst

theorem compact_mem_forms (t : DigitText) : t.compact ∈ t.forms := by
  have hbest : shorter t.positional t.wholeMantissa ∈ t.forms :=
    shorter_mem (by simp [forms]) (by simp [forms])
  unfold compact
  split
  case h_1 text htext => exact shorter_mem hbest (by simp [forms, htext])
  case h_2 => exact hbest

/-- No form is shorter than the one that is written. -/
theorem compact_length_le {text : List Char} (h : text ∈ t.forms) :
    t.compact.length ≤ text.length := by
  obtain ⟨hpositional, hwhole⟩ := shorter_length t.positional t.wholeMantissa
  rw [forms, List.mem_cons, List.mem_cons, Option.mem_toList] at h
  unfold compact
  split
  case h_1 pointed hpointed =>
      obtain ⟨hbest, hlast⟩ := shorter_length (shorter t.positional t.wholeMantissa) pointed
      rcases h with rfl | rfl | h
      · exact hbest.trans hpositional
      · exact hbest.trans hwhole
      · rw [hpointed, Option.some_inj] at h
        exact h ▸ hlast
  case h_2 hnone =>
      rcases h with rfl | rfl | h
      · exact hpositional
      · exact hwhole
      · rw [hnone] at h
        cases h

/-! ### Significant digits of a literal -/

theorem exists_digit {c : Char} (h : c.isDigit) :
    ∃ d < 10, hexDigit? c = some d ∧ d.digitChar = c := by
  simp only [Char.isDigit, Bool.and_eq_true, decide_eq_true_eq] at h
  have hlow : 48 ≤ c.toNat := UInt32.le_iff_toNat_le.mp h.1
  have hhigh : c.toNat ≤ 57 := UInt32.le_iff_toNat_le.mp h.2
  refine ⟨c.toNat - 48, by omega, if_pos h, Char.toNat_inj.mp ?_⟩
  rw [Nat.toNat_digitChar_of_lt_ten (by omega)]
  omega

/-- A numeral without leading zeros is the text of its value. -/
theorem toDigits_digitsValue {digits : List Char} (hdigits : ∀ c ∈ digits, c.isDigit)
    (hne : digits ≠ []) (hzero : digits.head? ≠ some '0') :
    Nat.toDigits 10 (digitsValue 10 digits) = digits := by
  induction digits using List.reverseRecOn with
  | nil => exact absurd rfl hne
  | append_singleton digits c ih =>
      obtain ⟨d, hd, hvalue, hchar⟩ := exists_digit (hdigits c (by simp))
      rw [digitsValue_append_singleton, hvalue, Option.getD_some]
      by_cases hfront : digits = []
      · subst hfront
        simp [digitsValue, Nat.toDigits_of_lt_base hd, hchar]
      · rw [List.head?_append, List.head?_eq_some_head hfront, Option.some_or,
          ← List.head?_eq_some_head] at hzero
        have hback := ih (fun c hc => hdigits c (by simp [hc])) hfront hzero
        have hpos : 0 < digitsValue 10 digits := by
          refine Nat.pos_of_ne_zero fun hnone => hzero ?_
          rw [← hback, hnone]
          rfl
        rw [Nat.mul_comm, ← Nat.toDigits_append_toDigits (by decide) hpos hd, hback,
          Nat.toDigits_of_lt_base hd, hchar]

/-- Digits without leading zeros are those of a decimal. -/
theorem eq_text (ht : t.Significant) :
    t = Decimal.text ⟨digitsValue 10 t.digits, t.point - t.digits.length⟩ := by
  rw [Decimal.text, toDigits_digitsValue ht.digits ht.ne_nil ht.no_zero]
  simp

/-- A digit text whose last digit is not zero has no value that ends in a zero. -/
theorem digitsValue_mod_ten (ht : t.Significant) (hlast : t.digits.getLast? ≠ some '0') :
    digitsValue 10 t.digits % 10 ≠ 0 := by
  have hdigits := ht.digits
  have hne := ht.ne_nil
  revert hlast hdigits hne
  generalize t.digits = digits
  induction digits using List.reverseRecOn with
  | nil => exact fun _ _ hne => absurd rfl hne
  | append_singleton digits c _ =>
      intro hlast hdigits _
      obtain ⟨d, hd, hvalue, hchar⟩ := exists_digit (hdigits c (by simp))
      rw [digitsValue_append_singleton, hvalue, Option.getD_some, Nat.mul_add_mod_self_right,
        Nat.mod_eq_of_lt hd]
      rintro rfl
      exact hlast (by rw [List.getLast?_append, ← hchar]; rfl)

end DigitText

/-! ### Decimals without zeros at the end -/

namespace Decimal

variable {d d' : Decimal}

theorem digits_eq_of_value (hle : d.exponent ≤ d'.exponent) (h : d.value = d'.value) :
    d.digits = d'.digits * 10 ^ (d'.exponent - d.exponent).toNat := by
  have hpow : (10 : ℚ) ^ d'.exponent =
      10 ^ (d'.exponent - d.exponent).toNat * 10 ^ d.exponent := by
    rw [← zpow_natCast, ← zpow_add₀ (by norm_num)]
    congr 1
    omega
  have hne : (10 : ℚ) ^ d.exponent ≠ 0 := zpow_ne_zero _ (by norm_num)
  rw [value, value, hpow, ← mul_assoc] at h
  exact_mod_cast mul_right_cancel₀ hne h

theorem eq_of_value_of_le (hd : d.digits % 10 ≠ 0) (hle : d.exponent ≤ d'.exponent)
    (h : d.value = d'.value) : d = d' := by
  have hdigits := digits_eq_of_value hle h
  have hexponent : (d'.exponent - d.exponent).toNat = 0 := by
    by_contra hpos
    obtain ⟨k, hk⟩ := Nat.exists_eq_succ_of_ne_zero hpos
    rw [hk, Nat.pow_succ, ← Nat.mul_assoc] at hdigits
    exact hd (hdigits ▸ Nat.mul_mod_left _ 10)
  rw [hexponent, Nat.pow_zero, Nat.mul_one] at hdigits
  obtain ⟨_, _⟩ := d
  obtain ⟨_, _⟩ := d'
  simp only at hdigits hle hexponent
  rw [mk.injEq]
  exact ⟨hdigits, by omega⟩

/-- A value has one decimal whose digits do not end in a zero. -/
theorem eq_of_value (hd : d.digits % 10 ≠ 0) (hd' : d'.digits % 10 ≠ 0)
    (h : d.value = d'.value) : d = d' := by
  rcases le_total d.exponent d'.exponent with hle | hle
  · exact eq_of_value_of_le hd hle h
  · exact (eq_of_value_of_le hd' hle h.symm).symm

end Decimal

namespace DecimalForm

variable {n : DecimalForm}

theorem bne_of_isDigit {c d : Char} (h : c.isDigit) (hd : d.isDigit = false) : (c != d) = true := by
  rw [bne_iff_ne]
  rintro rfl
  exact absurd h (by simp [hd])

/-- In front of the exponent there is no exponent mark. -/
theorem takeWhile_text (hn : n.WellFormed) :
    n.text.takeWhile (· != 'e') = n.whole ++ n.fractionText ∧
      n.text.dropWhile (· != 'e') = n.exponentText := by
  have hfront : ∀ c ∈ n.whole ++ n.fractionText, (c != 'e') = true := by
    intro c hc
    rcases List.mem_append.mp hc with hc | hc
    · exact bne_of_isDigit (hn.whole_digits c hc) rfl
    · cases hfraction : n.fraction with
      | none => simp [fractionText, hfraction] at hc
      | some digits =>
          rw [fractionText, hfraction, Option.elim_some, List.mem_cons] at hc
          rcases hc with rfl | hc
          · rfl
          · refine bne_of_isDigit (hn.fraction_digits c ?_) rfl
            rwa [fractionDigits, hfraction, Option.getD_some]
  have hback : n.exponentText.takeWhile (· != 'e') = [] ∧
      n.exponentText.dropWhile (· != 'e') = n.exponentText := by
    unfold exponentText
    cases n.exponent with
    | none => exact ⟨rfl, rfl⟩
    | some k => simp
  rw [text, ← List.append_assoc, List.takeWhile_append_of_pos hfront,
    List.dropWhile_append_of_pos hfront, hback.1, hback.2, List.append_nil]
  exact ⟨rfl, rfl⟩

theorem exponent_of_exponentText (n : DecimalForm) :
    (exponentPart n.exponentText).2 = n.exponent.getD 0 := by
  have hvalue := exponentPart_exponentText (show n.Stops [] from ⟨nofun, nofun, nofun⟩)
  rw [List.append_nil] at hvalue
  rw [hvalue]

/-- In front of the fraction there is no point. -/
theorem takeWhile_mantissa (hn : n.WellFormed) :
    (n.whole ++ n.fractionText).takeWhile (· != '.') = n.whole ∧
      ((n.whole ++ n.fractionText).dropWhile (· != '.')).drop 1 = n.fractionDigits := by
  have hfront : ∀ c ∈ n.whole, (c != '.') = true :=
    fun c hc => bne_of_isDigit (hn.whole_digits c hc) rfl
  rw [List.takeWhile_append_of_pos hfront, List.dropWhile_append_of_pos hfront]
  unfold fractionText fractionDigits
  cases n.fraction with
  | none => simp
  | some digits => simp

end DecimalForm

namespace DigitText

variable {n : DecimalForm}

/-- The parts of a literal are found again. -/
theorem ofLiteral_text (hn : n.WellFormed) : ofLiteral n.text =
    { digits := ((n.whole ++ n.fractionDigits).dropWhile (· == '0')).rdropWhile (· == '0')
      point := n.whole.length + n.exponent.getD 0 - ((n.whole ++ n.fractionDigits).length -
        ((n.whole ++ n.fractionDigits).dropWhile (· == '0')).length) } := by
  obtain ⟨hmantissa, hexponent⟩ := n.takeWhile_text hn
  obtain ⟨hwhole, hfraction⟩ := n.takeWhile_mantissa hn
  simp only [ofLiteral, hmantissa, hexponent, hwhole, hfraction, n.exponent_of_exponentText]

theorem eq_zeros_of_forall {digits : List Char} (h : ∀ c ∈ digits, (c == '0') = true) :
    digits = List.replicate digits.length '0' :=
  List.eq_replicate_of_mem fun c hc => eq_of_beq (h c hc)

/-- The zeros in front of the digits. -/
theorem eq_zeros_append (digits : List Char) : digits =
    List.replicate (digits.length - (digits.dropWhile (· == '0')).length) '0' ++
      digits.dropWhile (· == '0') := by
  have hzeros := eq_zeros_of_forall fun c (hc : c ∈ digits.takeWhile (· == '0')) =>
    List.mem_takeWhile_imp (p := (· == '0')) hc
  have hsplit := List.takeWhile_append_dropWhile (p := (· == '0')) (l := digits)
  have hlength := congrArg List.length hsplit
  rw [List.length_append] at hlength
  rw [← hlength, Nat.add_sub_cancel, ← hzeros, hsplit]

/-- The zeros behind the digits. -/
theorem eq_append_zeros (digits : List Char) : ∃ count,
    digits = digits.rdropWhile (· == '0') ++ List.replicate count '0' := by
  have hzeros := eq_zeros_of_forall fun c (hc : c ∈ digits.rtakeWhile (· == '0')) =>
    List.mem_rtakeWhile_imp (p := (· == '0')) hc
  refine ⟨(digits.rtakeWhile (· == '0')).length, ?_⟩
  rw [← hzeros, List.rdropWhile_append_rtakeWhile]

/-- The significant digits of a literal have its value, and no zero stands at their ends. -/
theorem significant_ofLiteral (hn : n.WellFormed) (hvalue : n.rational ≠ 0) :
    (ofLiteral n.text).Significant ∧ (ofLiteral n.text).digits.getLast? ≠ some '0' ∧
      (ofLiteral n.text).value = n.rational := by
  rw [ofLiteral_text hn]
  rw [DecimalForm.rational] at hvalue ⊢
  have hdigits : ∀ c ∈ n.whole ++ n.fractionDigits, c.isDigit := fun c hc =>
    (List.mem_append.mp hc).elim (hn.whole_digits c) (hn.fraction_digits c)
  have hlength : (n.whole ++ n.fractionDigits).length = n.whole.length + n.fractionDigits.length :=
    List.length_append
  generalize n.whole ++ n.fractionDigits = all at *
  have hfirst : (all.dropWhile (· == '0')).head? ≠ some '0' := by
    intro h
    have hhead := List.head?_dropWhile_not (· == '0') all
    rw [h] at hhead
    cases hhead
  have hfront := eq_zeros_append all
  have hle := (List.dropWhile_suffix (· == '0') (l := all)).length_le
  revert hfirst hfront hle
  generalize all.dropWhile (· == '0') = trimmed
  intro hfirst hfront hle
  have hlast : ∀ h : trimmed.rdropWhile (· == '0') ≠ [],
      (trimmed.rdropWhile (· == '0')).getLast h ≠ '0' := by
    intro h hzero
    exact List.rdropWhile_last_not (· == '0') trimmed h (by simp [hzero])
  obtain ⟨count, hback⟩ := eq_append_zeros trimmed
  revert hlast hback
  generalize trimmed.rdropWhile (· == '0') = digits
  intro hlast hback
  have hall : digitsValue 10 all = digitsValue 10 digits * 10 ^ count := by
    rw [hfront, digitsValue_zeros_append, hback, digitsValue_append_zeros]
  have hne : digits ≠ [] := by
    rintro rfl
    rw [hall] at hvalue
    simp [digitsValue] at hvalue
  refine ⟨⟨?_, hne, ?_⟩, ?_, ?_⟩
  · intro c hc
    refine hdigits c ?_
    rw [hfront, hback]
    simp [hc]
  · rw [hback, List.head?_append, List.head?_eq_some_head hne, Option.some_or,
      ← List.head?_eq_some_head] at hfirst
    exact hfirst
  · rw [List.getLast?_eq_some_getLast hne, ne_eq, Option.some_inj]
    exact hlast hne
  · have hcount := congrArg List.length hback
    rw [List.length_append, List.length_replicate] at hcount
    have hexponent : n.whole.length + n.exponent.getD 0 - ((all.length : Int) - trimmed.length) -
        digits.length = count + (n.exponent.getD 0 - n.fractionDigits.length) := by omega
    rw [value, hexponent, hall, zpow_add₀ (by norm_num), zpow_natCast]
    push_cast
    ring

end DigitText

/-! ### The shortest decimal does not end in a zero -/

namespace Number

variable {v : Number} {i : Interval} {tie : Tie} {exponent : Int} {d : Decimal}

theorem contains_of_has {count : Nat} (h : i.Has (count * 10 ^ exponent)) :
    i.contains (gridStep exponent).1 (gridStep exponent).2 count := by
  obtain ⟨hlow, hhigh, hinside⟩ := has_point_iff.mp h
  unfold Interval.contains
  split
  case isTrue => exact decide_eq_true ⟨hlow, hhigh⟩
  case isFalse hopen =>
      obtain ⟨hlow', hhigh'⟩ := hinside (Bool.eq_false_of_not_eq_true hopen)
      exact decide_eq_true ⟨by omega, by omega⟩

/-- A point between the lower end and a point of the interval. -/
theorem contains_below {step scale count : Nat} (count' : Nat) (h : i.contains step scale count)
    (hlow : i.low * scale < count' * step) (hle : count' * step ≤ count * step) :
    i.contains step scale count' := by
  unfold Interval.contains at h ⊢
  split at h
  case isTrue hclosed =>
      have := of_decide_eq_true h
      rw [if_pos hclosed]
      exact decide_eq_true ⟨by omega, by omega⟩
  case isFalse hopen =>
      have := of_decide_eq_true h
      rw [if_neg hopen]
      exact decide_eq_true ⟨by omega, by omega⟩

/-- A point between a point of the interval and the upper end. -/
theorem contains_above {step scale count : Nat} (count' : Nat) (h : i.contains step scale count)
    (hle : count * step ≤ count' * step) (hhigh : count' * step < i.high * scale) :
    i.contains step scale count' := by
  unfold Interval.contains at h ⊢
  split at h
  case isTrue hclosed =>
      have := of_decide_eq_true h
      rw [if_pos hclosed]
      exact decide_eq_true ⟨by omega, by omega⟩
  case isFalse hopen =>
      have := of_decide_eq_true h
      rw [if_neg hopen]
      exact decide_eq_true ⟨by omega, by omega⟩

/-- A grid with a point in the interval, other than zero, has one next to the number. -/
theorem exists_pick_of_contains (tie : Tie) {count : Nat} (hlow : i.low ≤ i.middle)
    (hhigh : i.middle < i.high) (hcount : count ≠ 0)
    (h : i.contains (gridStep exponent).1 (gridStep exponent).2 count) :
    ∃ d, i.pick tie exponent = some d := by
  have hstep := step_pos exponent
  have hscale := scale_pos exponent
  unfold Interval.pick
  generalize gridStep exponent = grid at hstep hscale h ⊢
  obtain ⟨step, scale⟩ := grid
  dsimp only at hstep hscale h ⊢
  have hlow' : i.low * scale ≤ i.middle * scale := Nat.mul_le_mul_right scale hlow
  have hhigh' : i.middle * scale < i.high * scale := Nat.mul_lt_mul_of_pos_right hhigh hscale
  have hdiv := Nat.div_mul_le_self (i.middle * scale) step
  have hnext := Nat.lt_div_mul_add (a := i.middle * scale) hstep
  generalize i.middle * scale / step = lower at *
  rcases Nat.lt_or_ge lower count with hgreat | hsmall
  · have hupper := contains_below (lower + 1) h (by rw [Nat.succ_mul]; omega)
      (Nat.mul_le_mul_right step hgreat)
    rw [hupper]
    cases i.contains step scale lower && lower != 0 with
    | true => exact ⟨_, rfl⟩
    | false => exact ⟨_, rfl⟩
  · have hlower := contains_above lower h (Nat.mul_le_mul_right step hsmall) (by omega)
    have hne : (lower != 0) = true := bne_iff_ne.mpr (by omega)
    rw [hlower, hne]
    cases i.contains step scale (lower + 1) with
    | true => exact ⟨_, rfl⟩
    | false => exact ⟨_, rfl⟩

/-- Grids before the one with the decimal that is found have no point to pick. -/
theorem pick_of_searchGrids {fuel : Nat} (h : searchGrids i tie exponent fuel = some d) :
    i.pick tie d.exponent = some d ∧ d.exponent ≤ exponent ∧
      ∀ earlier, d.exponent < earlier → earlier ≤ exponent → i.pick tie earlier = none := by
  induction fuel generalizing exponent with
  | zero => cases h
  | succ fuel ih =>
      rw [searchGrids, Option.orElse_eq_orElse, Option.orElse_eq_or, Option.or_eq_some_iff] at h
      rcases h with h | ⟨hnone, h⟩
      · obtain ⟨hexponent, -⟩ := contains_of_pick h
        rw [hexponent]
        exact ⟨h, le_refl _, fun earlier hlt hle => absurd hlt (not_lt.mpr hle)⟩
      · obtain ⟨hpick, hle, hearlier⟩ := ih h
        refine ⟨hpick, by omega, fun earlier hlt hle => ?_⟩
        rcases eq_or_lt_of_le hle with rfl | hlt'
        · exact hnone
        · exact hearlier earlier hlt (by omega)

/-- On a grid whose first step leads beyond the number only that step can be picked. -/
theorem digits_of_pick_of_lt (h : i.pick tie exponent = some d)
    (hcoarse : i.middle * (gridStep exponent).2 < (gridStep exponent).1) : d.digits = 1 := by
  unfold Interval.pick at h
  generalize gridStep exponent = grid at h hcoarse
  obtain ⟨step, scale⟩ := grid
  dsimp only at h hcoarse
  rw [Nat.div_eq_of_lt hcoarse] at h
  simp only [bne_self_eq_false, Bool.and_false] at h
  split at h
  case h_1 heq _ => cases heq
  case h_2 heq _ => cases heq
  case h_3 =>
      cases h
      rfl
  case h_4 => cases h

/-- Exponent of the first grid that is searched for a number with so many binary digits. -/
def firstGrid (log : Nat) : Int := ((log : Int) - 1073) * 30103 / 100000 + 2

/-- The first step of the first grid leads beyond the numbers of a magnitude. -/
theorem firstGrid_coarse : (List.range 2098).all (fun log =>
    Nat.ble (4 * Nat.pow 2 (log + 1) * (gridStep (firstGrid log)).2)
      (gridStep (firstGrid log)).1) := by
  decide +kernel

/-- The digits of the shortest decimal of a number do not end in a zero: the next coarser grid would
have had a point for the number, and on the first grid only the first step can be picked. -/
theorem digits_shortest_mod_ten (hfinite : v.isFinite) (hzero : v.isZero = false) (tie : Tie) :
    (v.shortest tie).digits % 10 ≠ 0 := by
  obtain ⟨d, hd⟩ := exists_search hfinite hzero tie
  rw [shortest, hd, Option.getD_some]
  obtain ⟨hpick, hle, hearlier⟩ := pick_of_searchGrids hd
  intro hten
  rcases eq_or_lt_of_le hle with hfirst | hlater
  · have hplace := place_lt hfinite
    have hlog := log2_units_lt hzero
    have hgrid := List.all_eq_true.mp firstGrid_coarse v.units.log2 (List.mem_range.mpr (by omega))
    have hcoarse : v.interval.middle * (gridStep v.exponentBound).2 <
        (gridStep v.exponentBound).1 := calc
      4 * v.units * (gridStep v.exponentBound).2 <
          4 * 2 ^ (v.units.log2 + 1) * (gridStep v.exponentBound).2 :=
        Nat.mul_lt_mul_of_pos_right (by have := Nat.lt_log2_self (n := v.units); omega)
          (scale_pos _)
      _ ≤ (gridStep v.exponentBound).1 := Nat.le_of_ble_eq_true hgrid
    rw [hfirst] at hpick
    rw [digits_of_pick_of_lt hpick hcoarse] at hten
    cases hten
  · have hvalue : ((d.digits / 10 : Nat) : ℚ) * 10 ^ (d.exponent + 1) = d.value := by
      have hdigits : (d.digits : ℚ) = (d.digits / 10 : Nat) * 10 := by
        exact_mod_cast (Nat.div_mul_cancel (Nat.dvd_of_mod_eq_zero hten)).symm
      rw [Decimal.value, hdigits, zpow_add_one₀ (by norm_num)]
      ring
    have hcontains := contains_of_has (hvalue ▸ has_of_pick hpick)
    have hne := digits_ne_zero_of_pick hpick
    have hhigh : v.interval.middle < v.interval.high := by
      rw [v.interval_high]
      have := Nat.two_pow_pos v.place
      omega
    obtain ⟨d', hd'⟩ := exists_pick_of_contains tie v.interval_low hhigh (by omega)
      hcontains
    rw [hearlier (d.exponent + 1) (by omega) (by omega)] at hd'
    cases hd'

/-- What the printer takes from a literal of the shortest decimal are the digits of that decimal. -/
theorem ofLiteral_eq_text (hfinite : v.isFinite) (hzero : v.isZero = false) {n : DecimalForm}
    (hn : n.WellFormed) (hvalue : n.rational = (v.shortest tie).value) :
    DigitText.ofLiteral n.text = (v.shortest tie).text := by
  have hne : n.rational ≠ 0 := by
    rw [hvalue]
    exact mul_ne_zero (Nat.cast_ne_zero.mpr (digits_shortest_ne_zero hzero tie))
      (zpow_ne_zero _ (by norm_num))
  obtain ⟨ht, hlast, htvalue⟩ := DigitText.significant_ofLiteral hn hne
  rw [DigitText.eq_text ht]
  refine congrArg Decimal.text (Decimal.eq_of_value (DigitText.digitsValue_mod_ten ht hlast)
    (digits_shortest_mod_ten hfinite hzero tie) ?_)
  rw [← hvalue, ← htvalue]
  rfl

/-- A number that is not zero is written from any decimal literal for its shortest decimal. -/
theorem literal_eq (hfinite : v.isFinite) (hzero : v.isZero = false) {n : DecimalForm}
    (hn : n.WellFormed) (hvalue : n.rational = (v.shortest .even).value) :
    v.literal.toList = signed v.negative (DigitText.ofLiteral n.text).compact := by
  have hnan : v.isNaN = false := isNaN_of_isFinite hfinite
  rw [literal, String.toList_ofList, hzero, hnan, hfinite,
    ofLiteral_eq_text hfinite hzero hn hvalue]
  rfl

/-- Literal text of a number, where the digits of its magnitude come from a decimal literal that
another program writes. -/
def literalBy (write : Number → List Char) (v : Number) : String :=
  String.ofList <|
    if v.isZero then ['0']
    else if v.isNaN then "NaN".toList
    else if v.isFinite then signed v.negative (DigitText.ofLiteral (write v.magnitude)).compact
    else signed v.negative "Infinity".toList

/-- What is written for a positive number denotes its shortest decimal. -/
def Shortens (write : Number → List Char) : Prop :=
  ∀ v : Number, v.isFinite → v.isZero = false → v.negative = false →
    Denotes (write v) (v.shortest .even).value

/-- All programs that write shortest decimals lead to the same literals, however they lay out the
digits: only what is denoted counts. -/
theorem literalBy_eq {write : Number → List Char} (hwrite : Shortens write) (v : Number) :
    literalBy write v = v.literal := by
  by_cases hplain : v.isFinite ∧ v.isZero = false
  · obtain ⟨hfinite, hzero⟩ := hplain
    obtain ⟨n, hn, htext, hvalue⟩ := hwrite v.magnitude hfinite hzero rfl
    have hnan : v.isNaN = false := isNaN_of_isFinite hfinite
    rw [← String.toList_inj, literal_eq hfinite hzero hn hvalue, literalBy, String.toList_ofList,
      hzero, hnan, hfinite, htext]
    rfl
  · rw [literalBy, literal]
    by_cases hzero : v.isZero
    · rw [if_pos hzero, if_pos hzero]
    · have hinfinite : ¬ v.isFinite := fun h => hplain ⟨h, Bool.eq_false_of_not_eq_true hzero⟩
      rw [if_neg hzero, if_neg hzero, if_neg hinfinite, if_neg hinfinite]

end Number

/-! ### Reading a literal -/

/-- A text does not go on with a digit, a letter, an underscore, a dollar sign or a point. -/
def StopsNumber (rest : List Char) : Prop :=
  ∀ c ∈ rest.head?, c.isDigit = false ∧ isNameStart c = false ∧ c ≠ '.'

namespace DecimalForm

variable {n : DecimalForm} {rest : List Char}

theorem stops_of_stopsNumber (h : StopsNumber rest) : n.Stops rest where
  no_digit c hc := (h c hc).1
  no_name c hc := (h c hc).2.1
  no_point _ hpoint := (h '.' hpoint).2.2 rfl

theorem gap?_text (hn : n.WellFormed) (rest : List Char) : gap? (n.text ++ rest) = none := by
  obtain ⟨c, tail, htext, hc⟩ := text_starts hn
  have hplain : isBlank c = false ∧ isLineBreak c = false ∧ c ≠ '/' := by
    rcases hc with hc | ⟨rfl, -⟩
    · exact ⟨(ne_of_isDigit hc).1, (ne_of_isDigit hc).2.1, (ne_of_isDigit hc).2.2.2⟩
    · decide
  rw [htext, List.cons_append, gap?]
  simp [hplain]

theorem no_break_of_mem_text (hn : n.WellFormed) {c : Char} (hc : c ∈ n.text) :
    isLineBreak c = false := by
  rcases n.mem_text hn hc with hc | hc
  · exact (ne_of_isDigit hc).2.1
  · have marks : ∀ d ∈ ['.', 'e', '-'], !isLineBreak d := List.all_eq_true.mp (by decide)
    simpa using marks c hc

end DecimalForm

/-- The parts of a literal are told by its text, so that it denotes one number only. -/
theorem Denotes.unique {text : List Char} {q q' : ℚ} (h : Denotes text q) (h' : Denotes text q') :
    q = q' := by
  obtain ⟨n, hn, rfl, rfl⟩ := h
  obtain ⟨m, hm, htext, rfl⟩ := h'
  have hparts : ∀ m : DecimalForm, m.WellFormed →
      m.rational = digitsValue 10 ((m.text.takeWhile (· != 'e')).takeWhile (· != '.') ++
          ((m.text.takeWhile (· != 'e')).dropWhile (· != '.')).drop 1) *
        10 ^ ((exponentPart (m.text.dropWhile (· != 'e'))).2 -
          (((m.text.takeWhile (· != 'e')).dropWhile (· != '.')).drop 1).length) := by
    intro m hm
    rw [(m.takeWhile_text hm).1, (m.takeWhile_text hm).2, (m.takeWhile_mantissa hm).1,
      (m.takeWhile_mantissa hm).2, m.exponent_of_exponentText]
    rfl
  rw [hparts n hn, hparts m hm, htext]

/-- Whatever follows a text, if only it does not go on with it, the text is read as one number
token by the rules of decimal literals. -/
def ReadAsNumber (text : List Char) (v : Number) : Prop :=
  ∀ (operand : Bool) (line : Nat) (rest : List Char), StopsNumber rest →
    number (text ++ rest) = .ok (decimal (text ++ rest)) ∧
      ∃ s, Stream.next operand (.ofChars line (text ++ rest)) =
          .ok (⟨.number v, ⟨line, 0, text.length⟩, line, none⟩, s) ∧
        s.cursor = ⟨text.length, line, rest⟩

theorem DecimalForm.readAsNumber {n : DecimalForm} (hn : n.WellFormed) :
    ReadAsNumber n.text n.value := by
  intro operand line rest hrest
  have hstops : n.Stops rest := DecimalForm.stops_of_stopsNumber hrest
  constructor
  · rw [number_text_append hn hstops, decimal_text_append hn hstops]
  · exact Stream.next_ofChars (gap?_text hn rest) (fun _ => no_break_of_mem_text hn)
      (scan_text_append operand hn hstops) rfl

/-- A number that is neither zero nor infinite is written exactly and as short as can be. From any
decimal literal for its shortest decimal the same text is written behind the sign. The text denotes
the same rational number as the literal, none of the three forms of its digits is shorter, and it is
read back as the number. -/
theorem Number.literal_exact {v : Number} (hfinite : v.isFinite) (hzero : v.isZero = false)
    {given : List Char} {q : ℚ} (hgiven : Denotes given q) (hq : q = (v.shortest .even).value) :
    v.literal.toList = signed v.negative (DigitText.ofLiteral given).compact ∧
      Denotes (DigitText.ofLiteral given).compact q ∧
      (∀ form ∈ (DigitText.ofLiteral given).forms,
        (DigitText.ofLiteral given).compact.length ≤ form.length) ∧
      ReadAsNumber (DigitText.ofLiteral given).compact v.magnitude := by
  obtain ⟨n, hn, rfl, rfl⟩ := hgiven
  have hsignificant : (v.shortest .even).text.Significant :=
    DigitText.significant_text (digits_shortest_ne_zero hzero .even)
  have hdenotes := DigitText.denotes_of_mem_forms hsignificant (DigitText.compact_mem_forms _)
  refine ⟨literal_eq hfinite hzero hn hq, ?_, fun _ => DigitText.compact_length_le, ?_⟩
  · rw [ofLiteral_eq_text hfinite hzero hn hq, hq, ← DigitText.value_text]
    exact hdenotes
  · rw [ofLiteral_eq_text hfinite hzero hn hq]
    obtain ⟨m, hm, htext, hvalue⟩ := hdenotes
    rw [DigitText.value_text] at hvalue
    have hback : m.value = v.magnitude :=
      ofDecimal_eq_of_shortest (v := v.magnitude) hfinite hzero rfl hvalue
    rw [← htext, ← hback]
    exact m.readAsNumber hm

def Number.minusFifteen : Number := .ofBits 0xbe8421f5f40d8376

theorem Number.literal_exact_minusFifteen :
    minusFifteen.isFinite = true ∧ minusFifteen.isZero = false ∧
      Denotes "1.5e-7".toList (minusFifteen.shortest .even).value ∧
      minusFifteen.literal.toList =
        signed true (DigitText.ofLiteral "1.5e-7".toList).compact ∧
      (DigitText.ofLiteral "1.5e-7".toList).compact = "15e-8".toList ∧
      ReadAsNumber "15e-8".toList minusFifteen.magnitude := by
  have hfinite : minusFifteen.isFinite = true := by decide +kernel
  have hzero : minusFifteen.isZero = false := by decide +kernel
  have hshortest : minusFifteen.shortest .even = ⟨15, -8⟩ := by decide +kernel
  have hcompact : (DigitText.ofLiteral "1.5e-7".toList).compact = "15e-8".toList := by decide
  have hgiven : Denotes "1.5e-7".toList (minusFifteen.shortest .even).value := by
    have hdigit : ∀ c ∈ ['1'], c.isDigit := List.forall_mem_singleton.mpr (by decide)
    have hfraction : ∀ c ∈ ['5'], c.isDigit := List.forall_mem_singleton.mpr (by decide)
    refine ⟨⟨['1'], some ['5'], some (-7)⟩, ⟨hdigit, hfraction, by decide, by decide, by decide⟩,
      by decide, ?_⟩
    rw [hshortest]
    rfl
  obtain ⟨hliteral, -, -, hread⟩ := literal_exact hfinite hzero hgiven rfl
  rw [hcompact] at hread
  exact ⟨hfinite, hzero, hgiven, hliteral, hcompact, hread⟩

end ScriptMin
