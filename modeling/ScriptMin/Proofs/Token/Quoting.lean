import Mathlib.Algebra.Group.Nat.Defs
import ScriptMin.Text.Quoted
import ScriptMin.Token.Lexeme

/-!
Reading string literals back. Every character of a literal is written either as itself or as
an escape, and the scanner turns each of these pieces into the character again. Characters
beyond U+FFFF are the exception: an escape splits them into two halves that do not come
together again, and each half is read as U+FFFD.
-/

namespace ScriptMin

open Text

namespace Lexeme

/-! ### Digits -/

theorem hexDigit?_digitChar {d : Nat} (hd : d < 16) : hexDigit? d.digitChar = some d := by
  have all : ∀ d < 16, hexDigit? d.digitChar = some d := by decide
  exact all d hd

theorem digitsValue_append_singleton (base : Nat) (digits : List Char) (d : Char) :
    digitsValue base (digits ++ [d]) =
      digitsValue base digits * base + (hexDigit? d).getD 0 := by
  simp [digitsValue]

theorem digitsValue_toDigits (base : Nat) (hbase : 1 < base ∧ base ≤ 16) (n : Nat) :
    digitsValue base (Nat.toDigits base n) = n := by
  induction n using Nat.strongRecOn with
  | ind n ih =>
      by_cases hn : n < base
      · rw [Nat.toDigits_of_lt_base hn]
        simp [digitsValue, hexDigit?_digitChar (show n < 16 by omega)]
      · have hlt : n % base < base := Nat.mod_lt n (by omega)
        rw [Nat.toDigits_of_base_le hbase.1 (by omega), digitsValue_append_singleton,
          ih (n / base) (Nat.div_lt_self (by omega) hbase.1), hexDigit?_digitChar (by omega),
          Option.getD_some, Nat.div_add_mod']

theorem isSome_hexDigit?_of_mem_toDigits {n : Nat} {c : Char} (h : c ∈ Nat.toDigits 16 n) :
    (hexDigit? c).isSome := by
  induction n using Nat.strongRecOn with
  | ind n ih =>
      by_cases hn : n < 16
      · rw [Nat.toDigits_of_lt_base hn, List.mem_singleton] at h
        simp [h, hexDigit?_digitChar hn]
      · rw [Nat.toDigits_of_base_le (by decide) (by omega), List.mem_append,
          List.mem_singleton] at h
        rcases h with h | h
        · exact ih (n / 16) (by omega) h
        · have hd : n % 16 < 16 := by omega
          simp [h, hexDigit?_digitChar hd]

theorem digitsValue_zeros_append (base count : Nat) (digits : List Char) :
    digitsValue base (List.replicate count '0' ++ digits) = digitsValue base digits := by
  have zeros : List.foldl (fun acc d => acc * base + (hexDigit? d).getD 0) 0
      (List.replicate count '0') = 0 := by
    induction count with
    | zero => rfl
    | succ count ih =>
        rw [List.replicate_succ, List.foldl_cons, Nat.zero_mul]
        exact ih
  simp only [digitsValue, List.foldl_append, zeros]

theorem digitsValue_append_zeros (base count : Nat) (digits : List Char) :
    digitsValue base (digits ++ List.replicate count '0') =
      digitsValue base digits * base ^ count := by
  induction count with
  | zero => simp
  | succ count ih =>
      rw [List.replicate_succ', ← List.append_assoc, digitsValue_append_singleton, ih,
        Nat.pow_succ, Nat.mul_assoc]
      rfl

theorem length_hexText {width n : Nat} (hwidth : 0 < width) (hn : n < 16 ^ width) :
    (hexText width n).length = width := by
  have hlen : (Nat.toDigits 16 n).length ≤ width :=
    (Nat.length_toDigits_le_iff (by decide) hwidth).mpr hn
  simp only [hexText, List.length_append, List.length_replicate]
  omega

theorem hexCode?_hexText {width n : Nat} (hwidth : 0 < width) (hn : n < 16 ^ width)
    (rest : List Char) : hexCode? width (hexText width n ++ rest) = some n := by
  have htake : (hexText width n ++ rest).take width = hexText width n :=
    List.take_left' (length_hexText hwidth hn)
  have hall : (hexText width n).all fun c => (hexDigit? c).isSome := by
    rw [List.all_eq_true]
    intro c hc
    rw [hexText, List.mem_append] at hc
    rcases hc with hc | hc
    · rw [List.eq_of_mem_replicate hc]
      rfl
    · exact isSome_hexDigit?_of_mem_toDigits hc
  have hvalue : digitsValue 16 (hexText width n) = n := by
    rw [hexText, digitsValue_zeros_append, digitsValue_toDigits 16 (by decide)]
  simp only [hexCode?, htake, length_hexText hwidth hn, hall, hvalue, and_self, if_true]

theorem charOfCode_toNat (c : Char) : charOfCode c.toNat = c := by
  have hvalid : c.toNat.isValidChar := c.valid
  rw [charOfCode, if_pos hvalid, Char.ofNat_toNat]

/-! ### What is read back -/

/-- The characters read for a character that is escaped by its sixteen bit units. -/
def unitChars (c : Char) : List Char := (utf16Units c).map charOfCode

/-- What is read for a character of a literal: the character, or two U+FFFD if it stands beyond
U+FFFF and is escaped. -/
def readBackChar (threshold : Nat) (c : Char) : List Char :=
  if 0xffff < c.toNat ∧ threshold ≤ c.toNat then ['\ufffd', '\ufffd'] else [c]

def readBack (threshold : Nat) (text : String) : String :=
  String.ofList (text.toList.flatMap (readBackChar threshold))

theorem utf16Units_of_le {c : Char} (h : c.toNat ≤ 0xffff) : utf16Units c = [c.toNat] :=
  if_pos (by omega)

theorem unitChars_of_le {c : Char} (h : c.toNat ≤ 0xffff) : unitChars c = [c] := by
  simp [unitChars, utf16Units_of_le h, charOfCode_toNat]

theorem toNat_lt (c : Char) : c.toNat < 0x110000 := by
  rcases c.valid with hlow | ⟨-, hhigh⟩
  · exact Nat.lt_trans hlow (by decide)
  · exact hhigh

theorem lt_of_mem_utf16Units {c : Char} {unit : Nat} (h : unit ∈ utf16Units c) :
    unit < 16 ^ 4 := by
  have hmax := toNat_lt c
  simp only [utf16Units] at h
  split at h
  · simp only [List.mem_singleton] at h
    omega
  · simp only [List.mem_cons, List.not_mem_nil, or_false] at h
    omega

/-- Neither half of a character beyond U+FFFF is a character. -/
theorem unitChars_of_lt {c : Char} (h : 0xffff < c.toNat) :
    unitChars c = ['\ufffd', '\ufffd'] := by
  have hmax := toNat_lt c
  have half : ∀ code, 0xd800 ≤ code → code < 0xe000 → charOfCode code = '\ufffd' := by
    intro code hlow hhigh
    refine if_neg fun hvalid => ?_
    rcases hvalid with hvalid | ⟨hvalid, -⟩ <;> omega
  have hbig : ¬ c.toNat < 0x10000 := by omega
  simp only [unitChars, utf16Units, hbig, if_false, List.map_cons, List.map_nil]
  rw [half _ (by omega) (by omega), half _ (by omega) (by omega)]

theorem readBackChar_of_le {threshold : Nat} {c : Char} (h : threshold ≤ c.toNat) :
    readBackChar threshold c = unitChars c := by
  unfold readBackChar
  by_cases hlow : c.toNat ≤ 0xffff
  · rw [unitChars_of_le hlow, if_neg (by omega)]
  · rw [unitChars_of_lt (by omega), if_pos (by omega)]

theorem readBackChar_of_plain {threshold : Nat} {c : Char}
    (h : c.toNat ≤ 0xffff ∨ c.toNat < threshold) : readBackChar threshold c = [c] :=
  if_neg (by omega)

theorem length_le_length_flatMap_readBackChar (threshold : Nat) (chars : List Char) :
    chars.length ≤ (chars.flatMap (readBackChar threshold)).length := by
  induction chars with
  | nil => exact Nat.le_refl 0
  | cons c chars ih =>
      have hone : 1 ≤ (readBackChar threshold c).length := by
        unfold readBackChar
        split <;> simp
      rw [List.flatMap_cons, List.length_append, List.length_cons]
      omega

theorem flatMap_readBackChar_eq_self {threshold : Nat} {chars : List Char} :
    chars.flatMap (readBackChar threshold) = chars ↔
      ∀ c ∈ chars, c.toNat ≤ 0xffff ∨ c.toNat < threshold := by
  induction chars with
  | nil => simp
  | cons c chars ih =>
      rw [List.flatMap_cons, List.forall_mem_cons, ← ih]
      by_cases hc : c.toNat ≤ 0xffff ∨ c.toNat < threshold
      · simp [readBackChar_of_plain hc, hc]
      · -- An escaped character makes the text longer.
        have hle := length_le_length_flatMap_readBackChar threshold chars
        rw [readBackChar, if_pos (by omega)]
        refine iff_of_false (fun h => ?_) (fun h => hc h.1)
        have hlen := congrArg List.length h
        simp only [List.length_append, List.length_cons, List.length_nil] at hlen
        omega

/-- A text is read back as itself exactly if no character beyond U+FFFF is escaped. -/
theorem readBack_eq_self {threshold : Nat} {text : String} :
    readBack threshold text = text ↔
      ∀ c ∈ text.toList, c.toNat ≤ 0xffff ∨ c.toNat < threshold := by
  rw [← flatMap_readBackChar_eq_self, readBack, ← String.toList_inj, String.toList_ofList]

/-! ### Escapes -/

theorem escape_code {letter : Char} {width : Nat}
    (hletter : letter = 'x' ∧ width = 2 ∨ letter = 'u' ∧ width = 4) {code : Nat}
    (hcode : code < 16 ^ width) (rest : List Char) :
    escape letter (hexText width code ++ rest) = .ok (some (charOfCode code), 1 + width) := by
  have hwidth : 0 < width := by omega
  have hread := hexCode?_hexText hwidth hcode rest
  rcases hletter with ⟨rfl, rfl⟩ | ⟨rfl, rfl⟩
  · simp [escape, escapeLetter?, hread]
  · simp [escape, escapeLetter?, hread]

theorem escape_letterEscape {c letter : Char} (h : letterEscape? c = some letter)
    (rest : List Char) : escape letter rest = .ok (some c, 1) := by
  unfold letterEscape? at h
  split at h
  all_goals first
    | cases h
      rfl
    | cases h

theorem escape_quote {q : Char} (hq : q = '"' ∨ q = '\'') (rest : List Char) :
    escape q rest = .ok (some q, 1) := by
  rcases hq with rfl | rfl
  · rfl
  · rfl

/-! ### Bodies of string literals -/

section

variable {q : Char} {threshold : Nat}

theorem stringBody_skip (acc : List Char) (length : Nat) (skipped rest : List Char) :
    stringBody q skipped.length acc length (skipped ++ rest) =
      stringBody q 0 acc (length + skipped.length) rest := by
  induction skipped generalizing length with
  | nil => rfl
  | cons c skipped ih =>
      rw [List.length_cons, List.cons_append, stringBody, ih]
      congr 1
      omega

theorem stringBody_escape (hq : q ≠ '\\') {letter c : Char} (tail : List Char)
    {rest : List Char} (h : escape letter (tail ++ rest) = .ok (some c, 1 + tail.length))
    (acc : List Char) (length : Nat) :
    stringBody q 0 acc length ('\\' :: letter :: tail ++ rest) =
      stringBody q 0 (c :: acc) (length + (tail.length + 2)) rest := by
  simp only [List.cons_append, stringBody, hq.symm, if_false, if_true, h, Option.toList_some,
    List.nil_append, Nat.add_comm 1, stringBody_skip]
  congr 1
  omega

/-- Escaped units are read one by one. -/
theorem stringBody_units (hq : q ≠ '\\') {units : List Nat} (hunits : ∀ u ∈ units, u < 16 ^ 4)
    (acc : List Char) (length : Nat) (rest : List Char) :
    stringBody q 0 acc length
        (units.flatMap (fun unit => '\\' :: 'u' :: hexText 4 unit) ++ rest) =
      stringBody q 0 ((units.map charOfCode).reverse ++ acc)
        (length + (units.flatMap fun unit => '\\' :: 'u' :: hexText 4 unit).length) rest := by
  induction units generalizing acc length with
  | nil => rfl
  | cons u units ih =>
      obtain ⟨hu, hunits⟩ := List.forall_mem_cons.mp hunits
      have hlen : (hexText 4 u).length = 4 := length_hexText (by decide) hu
      have hread := escape_code (.inr ⟨rfl, rfl⟩) hu
        (units.flatMap (fun unit => '\\' :: 'u' :: hexText 4 unit) ++ rest)
      rw [List.flatMap_cons, List.append_assoc, stringBody_escape hq _ (by rw [hlen]; exact hread),
        ih hunits]
      simp only [List.map_cons, List.reverse_cons, List.append_assoc, List.singleton_append,
        List.length_append, List.length_cons]
      congr 1
      omega

theorem stringBody_codeEscape (hq : q ≠ '\\') (c : Char) (acc : List Char) (length : Nat)
    (rest : List Char) :
    stringBody q 0 acc length (codeEscape c ++ rest) =
      stringBody q 0 ((unitChars c).reverse ++ acc) (length + (codeEscape c).length) rest := by
  unfold codeEscape
  split
  case isTrue hlow =>
      have hlen : (hexText 2 c.toNat).length = 2 := length_hexText (by decide) (by omega)
      have hread := escape_code (.inl ⟨rfl, rfl⟩) (show c.toNat < 16 ^ 2 by omega) rest
      rw [stringBody_escape hq _ (by rw [hlen]; exact hread), unitChars_of_le (by omega),
        charOfCode_toNat]
      rfl
  case isFalse hlow =>
      exact stringBody_units hq (fun _ h => lt_of_mem_utf16Units h) acc length rest

theorem needsCode_of_isLineBreak {c : Char} (hletter : letterEscape? c = none)
    (h : isLineBreak c) : needsCode threshold c := by
  simp only [isLineBreak, Bool.or_eq_true, beq_iff_eq] at h
  rcases h with ((rfl | rfl) | rfl) | rfl
  · cases hletter
  · cases hletter
  · rfl
  · rfl

/-- A character that is escaped by its code is read unit by unit. -/
theorem readBackChar_of_needsCode {c : Char} (h : needsCode threshold c) :
    readBackChar threshold c = unitChars c := by
  by_cases hlow : threshold ≤ c.toNat
  · exact readBackChar_of_le hlow
  · simp only [needsCode, hlow, decide_false, Bool.or_false, Bool.or_eq_true,
      decide_eq_true_eq, beq_iff_eq] at h
    have hsmall : c.toNat ≤ 0xffff := by
      rcases h with (hcontrol | rfl) | rfl
      · omega
      · decide
      · decide
    rw [unitChars_of_le hsmall, readBackChar_of_plain (.inl hsmall)]

theorem readBackChar_of_letterEscape {c letter : Char} (h : letterEscape? c = some letter) :
    readBackChar threshold c = [c] := by
  refine readBackChar_of_plain (.inl ?_)
  unfold letterEscape? at h
  split at h
  all_goals first
    | decide
    | cases h

/-- A written character is read back. -/
theorem stringBody_quotedChar (hq : q = '"' ∨ q = '\'') (c : Char) (acc : List Char)
    (length : Nat) (rest : List Char) :
    stringBody q 0 acc length (quotedChar q threshold c ++ rest) =
      stringBody q 0 ((readBackChar threshold c).reverse ++ acc)
        (length + (quotedChar q threshold c).length) rest := by
  have hslash : q ≠ '\\' := by
    rcases hq with rfl | rfl
    · decide
    · decide
  unfold quotedChar
  split
  case h_1 letter hletter =>
      rw [readBackChar_of_letterEscape hletter]
      exact stringBody_escape hslash [] (escape_letterEscape hletter rest) acc length
  case h_2 hletter =>
      split
      case isTrue hcq =>
          have hsmall : c.toNat ≤ 0xffff := by
            rcases hq with rfl | rfl <;> rw [hcq] <;> decide
          rw [readBackChar_of_plain (.inl hsmall)]
          subst hcq
          exact stringBody_escape hslash [] (escape_quote hq rest) acc length
      case isFalse hcq =>
          split
          case isTrue hcode =>
              rw [readBackChar_of_needsCode hcode]
              exact stringBody_codeEscape hslash c acc length rest
          case isFalse hcode =>
              have hplain : ¬ isLineBreak c := fun h => hcode (needsCode_of_isLineBreak hletter h)
              have hne : c ≠ '\\' := fun h => by simp [h, letterEscape?] at hletter
              have hraw : c.toNat < threshold := by
                simp only [needsCode, Bool.or_eq_true, decide_eq_true_eq, not_or] at hcode
                exact Nat.lt_of_not_le hcode.2
              rw [readBackChar_of_plain (.inr hraw)]
              simp only [List.singleton_append, stringBody, hcq, hne, hplain, if_false,
                List.length_singleton, Bool.false_eq_true, List.reverse_singleton]

theorem stringBody_flatMap_quotedChar (hq : q = '"' ∨ q = '\'') (chars acc : List Char)
    (length : Nat) (rest : List Char) :
    stringBody q 0 acc length (chars.flatMap (quotedChar q threshold) ++ q :: rest) =
      .ok (acc.reverse ++ chars.flatMap (readBackChar threshold),
        length + (chars.flatMap (quotedChar q threshold)).length + 1) := by
  induction chars generalizing acc length with
  | nil => simp [stringBody]
  | cons c chars ih =>
      rw [List.flatMap_cons, List.append_assoc, stringBody_quotedChar hq, ih]
      simp only [List.flatMap_cons, List.reverse_append, List.reverse_reverse, List.append_assoc,
        List.length_append, Nat.add_assoc]

end

theorem chooseQuote_cases (text : List Char) :
    chooseQuote text = '"' ∨ chooseQuote text = '\'' := by
  unfold chooseQuote
  split
  · exact .inr rfl
  · exact .inl rfl

theorem no_break_of_mem_hexText {width n : Nat} {c : Char} (hc : c ∈ hexText width n) :
    isLineBreak c = false := by
  have hdigit : (hexDigit? c).isSome := by
    rw [hexText, List.mem_append] at hc
    rcases hc with hc | hc
    · rw [List.eq_of_mem_replicate hc]
      rfl
    · exact isSome_hexDigit?_of_mem_toDigits hc
  cases hbreak : isLineBreak c with
  | false => rfl
  | true =>
      simp only [isLineBreak, Bool.or_eq_true, beq_iff_eq] at hbreak
      rcases hbreak with ((rfl | rfl) | rfl) | rfl <;> exact absurd hdigit (by decide)

theorem no_break_of_mem_codeEscape {c d : Char} (hd : d ∈ codeEscape c) :
    isLineBreak d = false := by
  unfold codeEscape at hd
  split at hd
  · simp only [List.mem_cons] at hd
    rcases hd with rfl | rfl | hd
    · rfl
    · rfl
    · exact no_break_of_mem_hexText hd
  · obtain ⟨unit, -, hd⟩ := List.mem_flatMap.mp hd
    simp only [List.mem_cons] at hd
    rcases hd with rfl | rfl | hd
    · rfl
    · rfl
    · exact no_break_of_mem_hexText hd

theorem no_break_of_mem_quotedChar {q : Char} (hq : q = '"' ∨ q = '\'') {threshold : Nat}
    {c d : Char} (hd : d ∈ quotedChar q threshold c) : isLineBreak d = false := by
  unfold quotedChar at hd
  split at hd
  case h_1 letter hletter =>
      have hplain : isLineBreak letter = false := by
        unfold letterEscape? at hletter
        split at hletter <;> cases hletter <;> rfl
      simp only [List.mem_cons, List.not_mem_nil, or_false] at hd
      rcases hd with rfl | rfl
      · rfl
      · exact hplain
  case h_2 hletter =>
      split at hd
      case isTrue hcq =>
          subst hcq
          simp only [List.mem_cons, List.not_mem_nil, or_false] at hd
          rcases hd with rfl | rfl
          · rfl
          · rcases hq with rfl | rfl <;> rfl
      case isFalse hcq =>
          split at hd
          case isTrue hcode => exact no_break_of_mem_codeEscape hd
          case isFalse hcode =>
              rw [List.mem_singleton.mp hd]
              cases hbreak : isLineBreak c with
              | false => rfl
              | true => exact absurd (needsCode_of_isLineBreak hletter hbreak) hcode

theorem no_break_of_mem_quote {threshold : Nat} {text : String} {c : Char}
    (hc : c ∈ (quote threshold text).toList) : isLineBreak c = false := by
  have hq := chooseQuote_cases text.toList
  have hmark : isLineBreak (chooseQuote text.toList) = false := by
    rcases hq with hq | hq <;> rw [hq] <;> rfl
  simp only [quote, String.toList_ofList, List.cons_append, List.mem_cons, List.mem_append,
    List.not_mem_nil, or_false] at hc
  rcases hc with rfl | hc | rfl
  · exact hmark
  · obtain ⟨d, -, hc⟩ := List.mem_flatMap.mp hc
    exact no_break_of_mem_quotedChar hq hc
  · exact hmark

/-- A written string literal is scanned as one token, which ends at the closing quote, whatever
follows it. -/
theorem scan_quote_readBack (operand : Bool) (threshold : Nat) (text : String)
    (rest : List Char) :
    scan operand ((quote threshold text).toList ++ rest) =
      .ok (plain (.string (readBack threshold text)) (quote threshold text).toList.length) := by
  have hq := chooseQuote_cases text.toList
  have hbody := @stringBody_flatMap_quotedChar _ threshold hq text.toList [] 1 rest
  have hbreak : isLineBreak (chooseQuote text.toList) = false := by
    rcases hq with hq | hq <;> rw [hq] <;> rfl
  simp only [quote, String.toList_ofList, List.cons_append, List.append_assoc, scan, hbreak, hq,
    if_true, Bool.false_eq_true, if_false, List.nil_append, hbody, List.reverse_nil]
  simp [bind, Except.bind, pure, Except.pure, readBack]
  congr 1
  omega

/-- A written string literal is scanned as the text it stands for, whatever follows it. -/
theorem scan_quote (operand : Bool) {threshold : Nat} {text : String}
    (h : ∀ c ∈ text.toList, c.toNat ≤ 0xffff ∨ c.toNat < threshold) (rest : List Char) :
    scan operand ((quote threshold text).toList ++ rest) =
      .ok (plain (.string text) (quote threshold text).toList.length) := by
  rw [scan_quote_readBack, readBack_eq_self.mpr h]

end Lexeme

end ScriptMin
