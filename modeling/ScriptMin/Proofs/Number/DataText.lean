import ScriptMin.Proofs.Number.Shortest
import ScriptMin.Proofs.Token.Numerals

/-!
Reading numbers of data values back. The written form of a number has the value of its shortest
decimal, so that no two numbers are written alike.
-/

namespace ScriptMin

open Lexeme

/-! ### Exponents with a sign -/

namespace Lexeme

theorem exponentPart_plus {k : Int} (h : 0 ≤ k) :
    (exponentPart ('e' :: '+' :: integerText k)).2 = k := by
  have hdigits : ∀ c ∈ Nat.toDigits 10 k.natAbs, c.isDigit :=
    fun c hc => Nat.isDigit_of_mem_toDigits (by decide) (by decide) hc
  have hrun : digitRun (Nat.toDigits 10 k.natAbs) = Nat.toDigits 10 k.natAbs := by
    have hrun := @digitRun_append _ [] hdigits nofun
    rwa [List.append_nil] at hrun
  have hne : (Nat.toDigits 10 k.natAbs).isEmpty = false := by
    simp [Nat.toDigits_ne_nil]
  have hvalue := digitsValue_toDigits 10 (by decide) k.natAbs
  rw [integerText, if_neg (by omega)]
  simp only [exponentPart, true_or, if_true, List.drop_succ_cons, List.drop_zero, hrun, hne,
    Bool.false_eq_true, if_false, hvalue]
  omega

end Lexeme

namespace DecimalForm

variable {n : DecimalForm}

/-- The exponent of a data value: its sign is written in both cases. -/
def exponentMark (exponent : Int) : List Char :=
  if exponent < 0 then integerText exponent else '+' :: integerText exponent

def dataText (n : DecimalForm) : List Char :=
  n.whole ++ (n.fractionText ++ n.exponent.elim [] ('e' :: exponentMark ·))

/-- The rational number a numeral stands for. -/
def rational (n : DecimalForm) : ℚ :=
  digitsValue 10 (n.whole ++ n.fractionDigits) *
    10 ^ (n.exponent.getD 0 - n.fractionDigits.length)

theorem exponentPart_exponentMark (exponent : Option Int) :
    (exponentPart (exponent.elim [] ('e' :: exponentMark ·))).2 = exponent.getD 0 := by
  cases exponent with
  | none => rfl
  | some k =>
      rw [Option.elim_some, Option.getD_some, exponentMark]
      split
      case isTrue =>
          have hback := @exponentPart_integerText k [] nofun
          rw [List.append_nil] at hback
          rw [hback]
      case isFalse hpos => exact exponentPart_plus (by omega)

/-- A numeral in a data value is read with its value. -/
theorem decimal_dataText (hn : n.WellFormed) : (decimal n.dataText).1 = n.value := by
  have hmark : ∀ c ∈ (n.exponent.elim [] ('e' :: exponentMark ·)).head?, c.isDigit = false := by
    cases n.exponent with
    | none => nofun
    | some k =>
        rintro c hc
        cases hc
        rfl
  have hexponent := exponentPart_exponentMark n.exponent
  rw [dataText, value]
  cases hfraction : n.fraction with
  | none =>
      have hpoint : (n.exponent.elim [] ('e' :: exponentMark ·)).head? ≠ some '.' := by
        cases n.exponent with
        | none => simp
        | some k => simp
      simp only [decimal, fractionText, fractionDigits, hfraction, Option.elim_none,
        Option.getD_none, List.nil_append, digitRun_append hn.whole_digits hmark, List.drop_left,
        hpoint, if_false, List.drop_zero, digitRun_eq_nil hmark, List.length_nil, Nat.add_zero,
        hexponent]
  | some digits =>
      have hdigits : ∀ c ∈ digits, c.isDigit := by
        simpa [fractionDigits, hfraction] using hn.fraction_digits
      generalize n.exponent.elim [] ('e' :: exponentMark ·) = rest at hmark hexponent
      have hrun : digitRun (n.whole ++ '.' :: (digits ++ rest)) = n.whole := by
        apply digitRun_append hn.whole_digits
        rintro c hc
        cases hc
        rfl
      have hdrop : (n.whole ++ '.' :: (digits ++ rest)).drop
          (n.whole.length + 1 + digits.length) = rest := by
        rw [Nat.add_assoc, List.drop_append, List.drop_of_length_le (by omega)]
        simp [Nat.add_comm 1]
      simp only [decimal, fractionText, fractionDigits, hfraction, Option.elim_some,
        Option.getD_some, List.cons_append, hrun, List.drop_left, List.head?_cons, if_true,
        List.drop_one, List.tail_cons, digitRun_append hdigits hmark, hdrop, hexponent]

end DecimalForm

namespace DigitText

variable {t : DigitText}

def value (t : DigitText) : ℚ := digitsValue 10 t.digits * 10 ^ (t.point - t.digits.length)

theorem value_text (d : Decimal) : d.text.value = d.value := by
  rw [value, Decimal.value, Decimal.text]
  simp only [digitsValue_toDigits 10 (by decide), add_sub_cancel_left]

/-- Value of the numeral with the point among the digits. -/
theorem rational_inside (hpos : 0 < t.point) (h : t.point < t.digits.length) :
    DecimalForm.rational
      ⟨t.digits.take t.point.toNat, some (t.digits.drop t.point.toNat), none⟩ = t.value := by
  rw [DecimalForm.rational, value, DecimalForm.fractionDigits, Option.getD_some,
    List.take_append_drop, List.length_drop, Option.getD_none]
  congr 2
  omega

/-- Value of the numeral with one digit before the point and an exponent. -/
theorem rational_pointed {first second : Char} {rest : List Char}
    (h : t.digits = first :: second :: rest) :
    DecimalForm.rational ⟨[first], some (second :: rest), some (t.point - 1)⟩ = t.value := by
  rw [DecimalForm.rational, value, h]
  simp only [DecimalForm.fractionDigits, Option.getD_some, List.singleton_append,
    List.length_cons]
  congr 2
  omega

/-- A numeral that is written for a digit text in a data value. -/
structure Writes (t : DigitText) (n : DecimalForm) : Prop where
  wellFormed : n.WellFormed
  whole : n.whole ≠ []
  marked : n.isBare = false
  text : t.dataValue = n.dataText
  value : n.rational = t.value

theorem isDigit_of_mem_append_zeros (ht : t.Significant) {count : Int} {c : Char}
    (hc : c ∈ t.digits ++ zeros count) : c.isDigit :=
  (List.mem_append.mp hc).elim (ht.digits c) isDigit_of_mem_zeros

theorem isDigit_of_mem_zeros_append (ht : t.Significant) {count : Int} {c : Char}
    (hc : c ∈ zeros count ++ t.digits) : c.isDigit :=
  (List.mem_append.mp hc).elim isDigit_of_mem_zeros (ht.digits c)

/-- A number below one: zeros behind the point. -/
theorem writes_below (ht : t.Significant) (hplain : -4 ≤ t.point ∧ t.point ≤ 16)
    (h : t.point ≤ 0) : t.Writes ⟨['0'], some (zeros (-t.point) ++ t.digits), none⟩ where
  wellFormed :=
    { whole_digits := by simp
      fraction_digits := fun _ hc => isDigit_of_mem_zeros_append ht hc
      some_digits := .inl (by simp)
      some_fraction := by simp [ht.ne_nil]
      no_octal := fun _ => rfl }
  whole := by simp
  marked := rfl
  text := by
    have hlength : 0 < t.digits.length := List.length_pos_iff.mpr ht.ne_nil
    rw [dataValue, if_pos hplain, if_neg (by omega), plain, if_pos h, positional, if_pos h]
    simp [DecimalForm.dataText, DecimalForm.fractionText]
  value := by
    have hdigits : ['0'] ++ (zeros (-t.point) ++ t.digits) =
        List.replicate ((-t.point).toNat + 1) '0' ++ t.digits := rfl
    have hlength : (zeros (-t.point) ++ t.digits).length = -t.point + t.digits.length := by
      rw [List.length_append, zeros, List.length_replicate]
      omega
    rw [DecimalForm.rational, value, DecimalForm.fractionDigits, Option.getD_some, hdigits,
      digitsValue_zeros_append, hlength, Option.getD_none]
    congr 2
    omega

/-- A number with the point among its digits. -/
theorem writes_inside (ht : t.Significant) (hplain : -4 ≤ t.point ∧ t.point ≤ 16)
    (hpos : 0 < t.point) (h : t.point < t.digits.length) :
    t.Writes ⟨t.digits.take t.point.toNat, some (t.digits.drop t.point.toNat), none⟩ where
  wellFormed := wellFormed_inside ht hpos h
  whole := by
    simp only [ne_eq, List.take_eq_nil_iff, ht.ne_nil, or_false]
    omega
  marked := rfl
  text := by
    rw [dataValue, if_pos hplain, if_neg (by omega), plain, if_neg (by omega), positional,
      if_neg (by omega), if_pos h]
    simp [DecimalForm.dataText, DecimalForm.fractionText]
  value := rational_inside hpos h

/-- A whole number: zeros up to the point, and one behind it. -/
theorem writes_whole (ht : t.Significant) (hplain : -4 ≤ t.point ∧ t.point ≤ 16)
    (h : (t.digits.length : Int) ≤ t.point) :
    t.Writes ⟨t.digits ++ zeros (t.point - t.digits.length), some ['0'], none⟩ where
  wellFormed :=
    { whole_digits := fun _ hc => isDigit_of_mem_append_zeros ht hc
      fraction_digits := by simp [DecimalForm.fractionDigits]
      some_digits := .inl (by simp [ht.ne_nil])
      some_fraction := by simp
      no_octal := by
        intro hzero
        rw [List.head?_append, List.head?_eq_some_head ht.ne_nil, Option.some_or,
          ← List.head?_eq_some_head] at hzero
        exact absurd hzero ht.no_zero }
  whole := by simp [ht.ne_nil]
  marked := rfl
  text := by
    have hlength : 0 < t.digits.length := List.length_pos_iff.mpr ht.ne_nil
    rw [dataValue, if_pos hplain, if_pos h, plain, if_neg (by omega), positional,
      if_neg (by omega), if_neg (by omega)]
    simp [DecimalForm.dataText, DecimalForm.fractionText]
  value := by
    have hvalue : digitsValue 10 (t.digits ++ zeros (t.point - t.digits.length) ++ ['0']) =
        digitsValue 10 t.digits * 10 ^ (t.point - t.digits.length).toNat * 10 := by
      rw [digitsValue_append_singleton, zeros, digitsValue_append_zeros]
      rfl
    have hpow : (10 : ℚ) ^ (t.point - t.digits.length).toNat =
        10 ^ (t.point - t.digits.length) := by
      rw [← zpow_natCast, Int.toNat_of_nonneg (by omega)]
    have htenth : (10 : ℚ) ^ (0 - (['0'].length : Int)) = 1 / 10 := by norm_num
    rw [DecimalForm.rational, value, DecimalForm.fractionDigits, Option.getD_some, hvalue,
      Option.getD_none, htenth]
    push_cast
    rw [hpow]
    ring

/-- A number out of the plain range: one digit before the point. -/
theorem writes_pointed (ht : t.Significant) (hplain : ¬ (-4 ≤ t.point ∧ t.point ≤ 16))
    {first second : Char} {rest : List Char} (h : t.digits = first :: second :: rest) :
    t.Writes ⟨[first], some (second :: rest), some (t.point - 1)⟩ where
  wellFormed := wellFormed_pointed ht h _
  whole := by simp
  marked := rfl
  text := by
    rw [dataValue, if_neg hplain, h]
    simp [DecimalForm.dataText, DecimalForm.fractionText, DecimalForm.exponentMark]
  value := rational_pointed h

/-- A number of one digit out of the plain range. -/
theorem writes_single (ht : t.Significant) (hplain : ¬ (-4 ≤ t.point ∧ t.point ≤ 16))
    {digit : Char} (h : t.digits = [digit]) : t.Writes ⟨[digit], none, some (t.point - 1)⟩ where
  wellFormed := by
    have hdigits := ht.digits
    have hzero := ht.no_zero
    rw [h] at hdigits hzero
    exact {
      whole_digits := hdigits
      fraction_digits := nofun
      some_digits := .inl (by simp)
      some_fraction := by simp
      no_octal := fun hfirst => absurd hfirst hzero }
  whole := by simp
  marked := rfl
  text := by
    rw [dataValue, if_neg hplain, h]
    simp [DecimalForm.dataText, DecimalForm.fractionText, DecimalForm.exponentMark]
  value := by
    rw [DecimalForm.rational, value, h]
    simp [DecimalForm.fractionDigits]

theorem exists_writes (ht : t.Significant) : ∃ n, t.Writes n := by
  by_cases hplain : -4 ≤ t.point ∧ t.point ≤ 16
  · rcases le_or_gt t.point 0 with hbelow | hpos
    · exact ⟨_, writes_below ht hplain hbelow⟩
    · rcases lt_or_ge t.point t.digits.length with hinside | hwhole
      · exact ⟨_, writes_inside ht hplain hpos hinside⟩
      · exact ⟨_, writes_whole ht hplain hwhole⟩
  · match hdigits : t.digits with
    | [] => exact absurd hdigits ht.ne_nil
    | [_] => exact ⟨_, writes_single ht hplain hdigits⟩
    | _ :: _ :: _ => exact ⟨_, writes_pointed ht hplain hdigits⟩

end DigitText

/-! ### Characters of a number -/

def isNumeral (c : Char) : Bool := c.isDigit || c == '.' || c == 'e' || c == '+' || c == '-'

theorem isNumeral_of_isDigit {c : Char} (h : c.isDigit) : isNumeral c := by
  simp [isNumeral, h]

theorem isDigit_or_minus_of_mem_integerText {k : Int} {c : Char} (hc : c ∈ integerText k) :
    c.isDigit ∨ c = '-' := by
  have hdigits : ∀ c ∈ Nat.toDigits 10 k.natAbs, c.isDigit :=
    fun c hc => Nat.isDigit_of_mem_toDigits (by decide) (by decide) hc
  rw [integerText] at hc
  split at hc
  · rcases List.mem_cons.mp hc with rfl | hc
    · exact .inr rfl
    · exact .inl (hdigits c hc)
  · exact .inl (hdigits c hc)

theorem isNumeral_of_mem_integerText {k : Int} {c : Char} (hc : c ∈ integerText k) :
    isNumeral c := by
  rcases isDigit_or_minus_of_mem_integerText hc with h | rfl
  · exact isNumeral_of_isDigit h
  · rfl

theorem integerText_ne_nil (k : Int) : integerText k ≠ [] := by
  rw [integerText]
  split
  · exact List.cons_ne_nil _ _
  · exact Nat.toDigits_ne_nil

/-- No two integers are written alike. -/
theorem integerText_injective {k l : Int} (h : integerText k = integerText l) : k = l := by
  have hk := @exponentPart_integerText k [] nofun
  have hl := @exponentPart_integerText l [] nofun
  rw [← h, hk] at hl
  exact congrArg Prod.snd hl

namespace DecimalForm

variable {n : DecimalForm}

theorem isNumeral_of_mem_dataText (hn : n.WellFormed) {c : Char} (hc : c ∈ n.dataText) :
    isNumeral c := by
  rw [dataText, List.mem_append, List.mem_append] at hc
  rcases hc with hc | hc | hc
  · exact isNumeral_of_isDigit (hn.whole_digits c hc)
  · cases hfraction : n.fraction with
    | none => simp [fractionText, hfraction] at hc
    | some digits =>
        rw [fractionText, hfraction, Option.elim_some, List.mem_cons] at hc
        rcases hc with rfl | hc
        · rfl
        · refine isNumeral_of_isDigit (hn.fraction_digits c ?_)
          rwa [fractionDigits, hfraction, Option.getD_some]
  · cases hexponent : n.exponent with
    | none => simp [hexponent] at hc
    | some k =>
        rw [hexponent, Option.elim_some, List.mem_cons, exponentMark] at hc
        rcases hc with rfl | hc
        · rfl
        · split at hc
          · exact isNumeral_of_mem_integerText hc
          · rcases List.mem_cons.mp hc with rfl | hc
            · rfl
            · exact isNumeral_of_mem_integerText hc

/-- The text of a numeral with a point or an exponent is not that of an integer. -/
theorem mark_mem_dataText (h : n.isBare = false) : '.' ∈ n.dataText ∨ 'e' ∈ n.dataText := by
  rw [isBare, Bool.and_eq_false_iff, Option.isNone_eq_false_iff, Option.isNone_eq_false_iff,
    Option.isSome_iff_exists, Option.isSome_iff_exists] at h
  rcases h with ⟨digits, h⟩ | ⟨k, h⟩
  · left
    simp [dataText, fractionText, h]
  · right
    simp [dataText, h]

theorem dataText_starts (hn : n.WellFormed) (hwhole : n.whole ≠ []) :
    ∃ c, n.dataText.head? = some c ∧ c.isDigit := by
  refine ⟨n.whole.head hwhole, ?_, hn.whole_digits _ (List.head_mem hwhole)⟩
  rw [dataText, List.head?_append, List.head?_eq_some_head hwhole, Option.some_or]

end DecimalForm

/-! ### Numbers -/

namespace Number

variable {v w : Number}

def magnitude (v : Number) : Number := { v with negative := false }

theorem eq_of_magnitude (hsign : v.negative = w.negative) (h : v.magnitude = w.magnitude) :
    v = w := by
  obtain ⟨negative, exponent, fraction⟩ := v
  obtain ⟨_, _, _⟩ := w
  cases hsign
  cases h
  rfl

/-- The text of a number in a data value is a numeral with a sign. -/
structure WritesData (v : Number) (n : DecimalForm) : Prop where
  wellFormed : n.WellFormed
  whole : n.whole ≠ []
  marked : n.isBare = false
  text : v.dataText.toList = signed v.negative n.dataText
  value : n.value = v.magnitude

theorem exists_writesData (hfinite : v.isFinite) : ∃ n, v.WritesData n := by
  cases hzero : v.isZero with
  | true =>
      refine ⟨⟨['0'], some ['0'], none⟩, ⟨⟨by simp, by simp [DecimalForm.fractionDigits],
        .inl (by simp), by simp, fun _ => rfl⟩, by simp, rfl, ?_, ?_⟩⟩
      · rw [dataText, String.toList_ofList, if_pos hzero]
        rfl
      · rw [isZero, Bool.and_eq_true, beq_iff_eq, beq_iff_eq] at hzero
        rw [magnitude, Fin.ext (a := v.exponent) (b := 0) hzero.1,
          Fin.ext (a := v.fraction) (b := 0) hzero.2]
        rfl
  | false =>
      obtain ⟨n, hn⟩ := DigitText.exists_writes
        (DigitText.significant_text (digits_shortest_ne_zero hzero .even))
      refine ⟨n, hn.wellFormed, hn.whole, hn.marked, ?_, ?_⟩
      · rw [dataText, String.toList_ofList, hzero, if_neg Bool.false_ne_true, hn.text]
      · have hvalue := hn.value
        rw [DigitText.value_text] at hvalue
        exact ofDecimal_eq_of_shortest (v := v.magnitude) hfinite hzero rfl hvalue

theorem WritesData.no_minus {n : DecimalForm} (h : v.WritesData n) :
    n.dataText.head? ≠ some '-' := by
  obtain ⟨c, hsome, hc⟩ := n.dataText_starts h.wellFormed h.whole
  rw [hsome, ne_eq, Option.some_inj]
  rintro rfl
  exact absurd hc (by decide)

theorem dataText_ne_nil (hfinite : v.isFinite) : v.dataText.toList ≠ [] := by
  obtain ⟨n, hn⟩ := exists_writesData hfinite
  obtain ⟨c, hsome, -⟩ := n.dataText_starts hn.wellFormed hn.whole
  have hne : n.dataText ≠ [] := by
    intro hnil
    rw [hnil] at hsome
    cases hsome
  rw [hn.text, signed]
  split
  · exact List.cons_ne_nil _ _
  · exact hne

theorem signed_inj {a b : Bool} {s t : List Char} (hs : s.head? ≠ some '-')
    (ht : t.head? ≠ some '-') (h : signed a s = signed b t) : a = b ∧ s = t := by
  cases a with
  | true =>
      cases b with
      | true => exact ⟨rfl, (List.cons.inj h).2⟩
      | false =>
          rw [← show signed true s = t from h] at ht
          exact absurd rfl ht
  | false =>
      cases b with
      | true =>
          rw [show s = signed true t from h] at hs
          exact absurd rfl hs
      | false => exact ⟨rfl, h⟩

theorem isNumeral_of_mem_dataText (hfinite : v.isFinite) {c : Char}
    (hc : c ∈ v.dataText.toList) : isNumeral c := by
  obtain ⟨n, hn⟩ := exists_writesData hfinite
  rw [hn.text, signed] at hc
  split at hc
  · rcases List.mem_cons.mp hc with rfl | hc
    · rfl
    · exact n.isNumeral_of_mem_dataText hn.wellFormed hc
  · exact n.isNumeral_of_mem_dataText hn.wellFormed hc

/-- A number and an integer are not written alike. -/
theorem dataText_ne_integerText (hfinite : v.isFinite) (k : Int) :
    v.dataText.toList ≠ integerText k := by
  intro heq
  obtain ⟨n, hn⟩ := exists_writesData hfinite
  have hmark : '.' ∈ integerText k ∨ 'e' ∈ integerText k := by
    rw [← heq, hn.text, signed]
    split
    · exact (n.mark_mem_dataText hn.marked).imp (List.mem_cons_of_mem _) (List.mem_cons_of_mem _)
    · exact n.mark_mem_dataText hn.marked
  rcases hmark with h | h
  · exact absurd (isDigit_or_minus_of_mem_integerText h) (by decide)
  · exact absurd (isDigit_or_minus_of_mem_integerText h) (by decide)

/-- No two numbers are written alike. -/
theorem dataText_injective (hv : v.isFinite) (hw : w.isFinite) (h : v.dataText = w.dataText) :
    v = w := by
  obtain ⟨n, hn⟩ := exists_writesData hv
  obtain ⟨m, hm⟩ := exists_writesData hw
  have htext : signed v.negative n.dataText = signed w.negative m.dataText := by
    rw [← hn.text, ← hm.text, h]
  have heq := signed_inj hn.no_minus hm.no_minus htext
  apply eq_of_magnitude heq.1
  rw [← hn.value, ← hm.value, ← DecimalForm.decimal_dataText hn.wellFormed, heq.2,
    DecimalForm.decimal_dataText hm.wellFormed]

end Number

end ScriptMin
