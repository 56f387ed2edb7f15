import ScriptMin.Proofs.Token.LineBreaks

/-!
Tokens of texts with additions. A text may have an additional space behind a comma and an
additional semicolon before a closing brace. The scanner reads it as it reads the text without
additions, but for the semicolons: a space between tokens is skipped, an addition inside a string,
a regular expression or a comment stays inside it, and a semicolon between tokens is a token of its
own, with the closing brace as the next one.
-/

namespace ScriptMin

open Text Lexeme

/-! ### Texts with additions -/

/-- The second text is the first one with a space behind some commas and a semicolon before some
closing braces. -/
inductive Padded : List Char → List Char → Prop where
  | nil : Padded [] []
  | char (c : Char) {plain padded : List Char} :
      Padded plain padded → Padded (c :: plain) (c :: padded)
  | space {plain padded : List Char} :
      Padded plain padded → Padded (',' :: plain) (',' :: ' ' :: padded)
  | semicolon {plain padded : List Char} :
      Padded plain padded → Padded ('}' :: plain) (';' :: '}' :: padded)

namespace Padded

variable {p q : List Char} {f : Char → Bool}

/-- What is asked of the next character has the same answer, if it does not tell a semicolon from
a closing brace. -/
theorem any_head? (h : Padded p q) (hf : f ';' = f '}') : q.head?.any f = p.head?.any f := by
  cases h with
  | nil => rfl
  | char c => rfl
  | space => rfl
  | semicolon => exact hf

theorem head?_eq_iff (h : Padded p q) {c : Char} (hsemicolon : c ≠ ';') (hbrace : c ≠ '}') :
    q.head? = some c ↔ p.head? = some c := by
  cases h with
  | nil => rfl
  | char d => rfl
  | space => rfl
  | semicolon => simp [hsemicolon.symm, hbrace.symm]

/-- A run of characters that are no places for additions is the same in both texts. -/
theorem takeWhile (h : Padded p q) (hcomma : f ',' = false) (hbrace : f '}' = false)
    (hsemicolon : f ';' = false) : q.takeWhile f = p.takeWhile f ∧
      Padded (p.drop (p.takeWhile f).length) (q.drop (p.takeWhile f).length) := by
  induction h with
  | nil => exact ⟨rfl, .nil⟩
  | @char c plain padded h ih =>
      cases hc : f c with
      | true =>
          rw [List.takeWhile_cons_of_pos hc, List.takeWhile_cons_of_pos hc, ih.1]
          exact ⟨rfl, ih.2⟩
      | false =>
          have hnot : ¬ f c = true := by simp [hc]
          rw [List.takeWhile_cons_of_neg hnot, List.takeWhile_cons_of_neg hnot]
          exact ⟨rfl, .char c h⟩
  | space h =>
      have hnot : ¬ f ',' = true := by simp [hcomma]
      rw [List.takeWhile_cons_of_neg hnot, List.takeWhile_cons_of_neg hnot]
      exact ⟨rfl, .space h⟩
  | semicolon h =>
      have hbrace' : ¬ f '}' = true := by simp [hbrace]
      have hsemicolon' : ¬ f ';' = true := by simp [hsemicolon]
      rw [List.takeWhile_cons_of_neg hbrace', List.takeWhile_cons_of_neg hsemicolon']
      exact ⟨rfl, .semicolon h⟩

/-- What stands behind a run of characters that goes on over additions. -/
theorem dropWhile (h : Padded p q) (hcomma : f ',' = true) (hspace : f ' ' = true)
    (hbrace : f '}' = true) (hsemicolon : f ';' = true) :
    Padded (p.dropWhile f) (q.dropWhile f) := by
  induction h with
  | nil => exact .nil
  | @char c plain padded h ih =>
      cases hc : f c with
      | true => rwa [List.dropWhile_cons_of_pos hc, List.dropWhile_cons_of_pos hc]
      | false =>
          have hnot : ¬ f c = true := by simp [hc]
          rw [List.dropWhile_cons_of_neg hnot, List.dropWhile_cons_of_neg hnot]
          exact .char c h
  | space h ih =>
      rwa [List.dropWhile_cons_of_pos hcomma, List.dropWhile_cons_of_pos hcomma,
        List.dropWhile_cons_of_pos hspace]
  | semicolon h ih =>
      rwa [List.dropWhile_cons_of_pos hbrace, List.dropWhile_cons_of_pos hsemicolon,
        List.dropWhile_cons_of_pos hbrace]

/-- Characters that are no places for additions are the same in both texts. -/
theorem take (h : Padded p q) {n : Nat} (hsafe : ∀ c ∈ p.take n, c ≠ ',' ∧ c ≠ '}') :
    q.take n = p.take n ∧ Padded (p.drop n) (q.drop n) := by
  induction n generalizing p q with
  | zero => exact ⟨rfl, h⟩
  | succ n ih =>
      cases h with
      | nil => exact ⟨rfl, .nil⟩
      | char c h =>
          rw [List.take_succ_cons, List.forall_mem_cons] at hsafe
          obtain ⟨htake, hdrop⟩ := ih h hsafe.2
          rw [List.take_succ_cons, List.take_succ_cons, htake]
          exact ⟨rfl, hdrop⟩
      | space => exact absurd rfl (hsafe ',' List.mem_cons_self).1
      | semicolon => exact absurd rfl (hsafe '}' List.mem_cons_self).2

/-- Characters that are no places for additions start both texts or neither. -/
theorem isPrefixOf_eq (h : Padded p q) {chars : List Char}
    (hsafe : ∀ c ∈ chars, c ≠ ',' ∧ c ≠ '}' ∧ c ≠ ';') :
    chars.isPrefixOf q = chars.isPrefixOf p := by
  induction chars generalizing p q with
  | nil => rw [List.isPrefixOf_nil_left, List.isPrefixOf_nil_left]
  | cons c rest ih =>
      rw [List.forall_mem_cons] at hsafe
      cases h with
      | nil => rfl
      | char d h => rw [List.isPrefixOf, List.isPrefixOf, ih h hsafe.2]
      | space =>
          have hne : (c == ',') = false := beq_false_of_ne hsafe.1.1
          rw [List.isPrefixOf, List.isPrefixOf, hne, Bool.false_and, Bool.false_and]
      | semicolon =>
          have hbrace : (c == '}') = false := beq_false_of_ne hsafe.1.2.1
          have hsemicolon : (c == ';') = false := beq_false_of_ne hsafe.1.2.2
          rw [List.isPrefixOf, List.isPrefixOf, hbrace, hsemicolon, Bool.false_and, Bool.false_and]

end Padded

/-! ### Numbers -/

namespace Lexeme

variable {p q : List Char}

theorem padded_digitRun (h : Padded p q) : digitRun q = digitRun p ∧
    Padded (p.drop (digitRun p).length) (q.drop (digitRun p).length) :=
  h.takeWhile rfl rfl rfl

def exponentSign : List Char → Nat × Bool
  | '+' :: _ => (1, false)
  | '-' :: _ => (1, true)
  | _ => (0, false)

theorem exponentPart_cons (mark : Char) (rest : List Char) : exponentPart (mark :: rest) =
    if mark = 'e' ∨ mark = 'E' then
      let digits := digitRun (rest.drop (exponentSign rest).1)
      if digits.isEmpty then (0, 0)
      else
        let value : Int := digitsValue 10 digits
        (1 + (exponentSign rest).1 + digits.length, if (exponentSign rest).2 then -value else value)
    else (0, 0) := rfl

theorem padded_exponentSign (h : Padded p q) : exponentSign q = exponentSign p ∧
    Padded (p.drop (exponentSign p).1) (q.drop (exponentSign p).1) := by
  cases h with
  | nil => exact ⟨rfl, .nil⟩
  | space h => exact ⟨rfl, .space h⟩
  | semicolon h => exact ⟨rfl, .semicolon h⟩
  | @char c plain padded h =>
      by_cases hplus : c = '+'
      · subst hplus
        exact ⟨rfl, h⟩
      by_cases hminus : c = '-'
      · subst hminus
        exact ⟨rfl, h⟩
      have hnone (rest : List Char) : exponentSign (c :: rest) = (0, false) := by
        rw [exponentSign]
        · exact fun _ heq => hplus (List.cons.inj heq).1
        · exact fun _ heq => hminus (List.cons.inj heq).1
      rw [hnone, hnone]
      exact ⟨rfl, .char c h⟩

theorem padded_exponentPart (h : Padded p q) : exponentPart q = exponentPart p ∧
    Padded (p.drop (exponentPart p).1) (q.drop (exponentPart p).1) := by
  cases h with
  | nil => exact ⟨rfl, .nil⟩
  | space h => exact ⟨rfl, .space h⟩
  | semicolon h => exact ⟨rfl, .semicolon h⟩
  | @char mark plain padded h =>
      obtain ⟨hsign, hbehind⟩ := padded_exponentSign h
      obtain ⟨hdigits, hrest⟩ := padded_digitRun hbehind
      rw [exponentPart_cons, exponentPart_cons, hsign, hdigits]
      refine ⟨rfl, ?_⟩
      dsimp only
      split
      case isFalse => exact .char mark h
      case isTrue =>
          split
          · exact .char mark h
          · rw [List.drop_drop, List.drop_drop] at hrest
            rwa [Nat.add_assoc, Nat.add_comm 1, List.drop_succ_cons, List.drop_succ_cons]

theorem padded_decimal (h : Padded p q) : decimal q = decimal p ∧
    Padded (p.drop (decimal p).2) (q.drop (decimal p).2) := by
  obtain ⟨hwhole, hbehind⟩ := padded_digitRun h
  have hpoint := hbehind.head?_eq_iff (c := '.') (by decide) (by decide)
  have hfront : Padded
      ((p.drop (digitRun p).length).drop
        (if (p.drop (digitRun p).length).head? = some '.' then 1 else 0))
      ((q.drop (digitRun p).length).drop
        (if (p.drop (digitRun p).length).head? = some '.' then 1 else 0)) := by
    split
    case isFalse => exact hbehind
    case isTrue hhead =>
        obtain ⟨-, hrest⟩ := hbehind.take (n := 1) fun c hc => by
          obtain ⟨tail, htail⟩ := List.head?_eq_some_iff.mp hhead
          rw [htail, List.take_succ_cons, List.take_zero, List.mem_singleton] at hc
          rw [hc]
          decide
        exact hrest
  obtain ⟨hfraction, hrest⟩ := padded_digitRun hfront
  simp only [decimal, hwhole, hpoint, hfraction]
  generalize (if (p.drop (digitRun p).length).head? = some '.' then 1 else 0) = point at *
  generalize digitRun ((p.drop (digitRun p).length).drop point) = fraction at *
  have hend : Padded (p.drop ((digitRun p).length + point + fraction.length))
      (q.drop ((digitRun p).length + point + fraction.length)) := by
    simpa only [List.drop_drop, Nat.add_assoc] using hrest
  obtain ⟨hexponent, hlast⟩ := padded_exponentPart hend
  rw [List.drop_drop, List.drop_drop] at hlast
  rw [hexponent]
  exact ⟨rfl, hlast⟩

/-- A decimal literal, which no name must follow. -/
def decimalLiteral (text : List Char) : Except LexicalCause (Number × Nat) :=
  if (text.drop (decimal text).2).head?.any isNameStart then .error .nameAfterNumber
  else .ok (decimal text)

theorem number_zero (rest : List Char) : number ('0' :: rest) =
    if rest.head? = some 'x' ∨ rest.head? = some 'X' then
      let digits := (rest.drop 1).takeWhile fun c => (hexDigit? c).isSome
      if digits.isEmpty then .error .badHexLiteral
      else .ok (roundedValue 16 digits, 2 + digits.length)
    else if (digitRun rest).isEmpty ∨ (digitRun rest).any (· ≥ '8') ∨
        (rest.drop (digitRun rest).length).head? = some '.' then decimalLiteral ('0' :: rest)
    else .ok (roundedValue 8 (digitRun rest), 1 + (digitRun rest).length) := rfl

theorem number_of_ne_zero {c : Char} (hc : c ≠ '0') (rest : List Char) :
    number (c :: rest) = decimalLiteral (c :: rest) := by
  rw [number]
  · rfl
  · exact fun _ heq => hc (List.cons.inj heq).1

variable {n : Nat} {value : Number}

theorem padded_decimalLiteral (h : Padded p q) (hliteral : decimalLiteral p = .ok (value, n)) :
    decimalLiteral q = .ok (value, n) ∧ Padded (p.drop n) (q.drop n) := by
  obtain ⟨hdecimal, hbehind⟩ := padded_decimal h
  have hname := hbehind.any_head? (f := isNameStart) (by decide)
  rw [decimalLiteral] at hliteral ⊢
  rw [hdecimal, hname]
  split at hliteral
  case isTrue => cases hliteral
  case isFalse hnot =>
      rw [if_neg hnot]
      rw [Except.ok.inj hliteral] at hbehind ⊢
      exact ⟨rfl, hbehind⟩

theorem padded_number {c : Char} (h : Padded p q) (hnumber : number (c :: p) = .ok (value, n)) :
    number (c :: q) = .ok (value, n) ∧ Padded ((c :: p).drop n) ((c :: q).drop n) := by
  by_cases hc : c = '0'
  case neg =>
      rw [number_of_ne_zero hc] at hnumber ⊢
      exact padded_decimalLiteral (.char c h) hnumber
  case pos =>
      subst hc
      obtain ⟨hrun, hrest⟩ := padded_digitRun h
      have hlower := h.head?_eq_iff (c := 'x') (by decide) (by decide)
      have hupper := h.head?_eq_iff (c := 'X') (by decide) (by decide)
      have hpoint := hrest.head?_eq_iff (c := '.') (by decide) (by decide)
      rw [number_zero] at hnumber ⊢
      simp only [hlower, hupper, hrun, hpoint]
      split at hnumber
      case isTrue hmark =>
          have hsafe : ∀ d ∈ p.take 1, d ≠ ',' ∧ d ≠ '}' := by
            rintro d hd
            rcases hmark with hmark | hmark <;>
              obtain ⟨tail, rfl⟩ := List.head?_eq_some_iff.mp hmark <;>
              rw [List.mem_singleton.mp hd] <;> decide
          obtain ⟨hdigits, hend⟩ := (h.take hsafe).2.takeWhile
            (f := fun c => (hexDigit? c).isSome) rfl rfl rfl
          rw [if_pos hmark, hdigits]
          simp only at hnumber ⊢
          split at hnumber
          case isTrue => cases hnumber
          case isFalse hsome =>
              cases hnumber
              rw [if_neg hsome]
              rw [List.drop_drop, List.drop_drop] at hend
              refine ⟨rfl, ?_⟩
              rw [show 2 = 1 + 1 from rfl, Nat.add_right_comm, List.drop_succ_cons,
                List.drop_succ_cons]
              exact hend
      case isFalse hmark =>
          rw [if_neg hmark]
          split at hnumber
          case isTrue hdecimal =>
              rw [if_pos hdecimal]
              exact padded_decimalLiteral (.char '0' h) hnumber
          case isFalse hdecimal =>
              cases hnumber
              rw [if_neg hdecimal]
              refine ⟨rfl, ?_⟩
              rwa [Nat.add_comm, List.drop_succ_cons, List.drop_succ_cons]

/-! ### Words and punctuators -/

theorem padded_word (h : Padded p q) : word q = word p ∧
    Padded (p.drop (word p).length) (q.drop (word p).length) := by
  obtain ⟨hchars, hrest⟩ := h.takeWhile (f := isNamePart) (by decide) (by decide) (by decide)
  rw [length_word]
  exact ⟨by simp only [word, hchars], hrest⟩

/-- The commas, braces and semicolons of punctuators are punctuators on their own. -/
theorem safe_tail_of_spelling : ∀ s ∈ Punctuator.spellings,
    s.chars.tail.all fun c => c != ',' && c != '}' && c != ';' := by decide

theorem padded_scan? {c : Char} (h : Padded p q) {s : Punctuator.Spelling}
    (hscan : Punctuator.scan? (c :: p) = some s) : Punctuator.scan? (c :: q) = some s ∧
      Padded ((c :: p).drop s.chars.length) ((c :: q).drop s.chars.length) := by
  have hsafe : ∀ s ∈ Punctuator.spellings, ∀ d ∈ s.chars.tail, d ≠ ',' ∧ d ≠ '}' ∧ d ≠ ';' := by
    intro s hs d hd
    have := List.all_eq_true.mp (safe_tail_of_spelling s hs) d hd
    simp only [Bool.and_eq_true, bne_iff_ne] at this
    exact ⟨this.1.1, this.1.2, this.2⟩
  have hsame : ∀ s ∈ Punctuator.spellings,
      s.chars.isPrefixOf (c :: q) = s.chars.isPrefixOf (c :: p) := by
    intro s hs
    cases hchars : s.chars with
    | nil => rw [List.isPrefixOf_nil_left, List.isPrefixOf_nil_left]
    | cons d tail =>
        have htail := hsafe s hs
        rw [hchars, List.tail_cons] at htail
        rw [List.isPrefixOf, List.isPrefixOf, h.isPrefixOf_eq htail]
  have hfound : Punctuator.scan? (c :: q) = some s := by
    rw [Punctuator.scan?, List.find?_congr hsame]
    exact hscan
  refine ⟨hfound, ?_⟩
  have hmem := List.mem_of_find?_eq_some hscan
  have hstarts := List.find?_some hscan
  have hprefix := List.isPrefixOf_iff_prefix.mp hstarts
  cases hchars : s.chars with
  | nil => exact .char c h
  | cons d tail =>
      have htail := hsafe s hmem
      rw [hchars, List.cons_prefix_cons] at hprefix
      rw [hchars, List.tail_cons] at htail
      rw [List.length_cons, List.drop_succ_cons, List.drop_succ_cons]
      refine (h.take fun e he => ?_).2
      rw [← List.prefix_iff_eq_take.mp hprefix.2] at he
      exact ⟨(htail e he).1, (htail e he).2.1⟩

/-! ### Strings and regular expressions -/

/-- The digits of an escape are no places for additions. -/
theorem padded_hexCode? (h : Padded p q) {count code : Nat} (hcode : hexCode? count p = some code) :
    hexCode? count q = some code ∧ ∀ c ∈ p.take count, c ≠ ',' ∧ c ≠ '}' := by
  have hsafe : ∀ c ∈ p.take count, c ≠ ',' ∧ c ≠ '}' := by
    intro c hc
    rw [hexCode?] at hcode
    split at hcode
    case isTrue hdigits =>
        have hdigit := List.all_eq_true.mp hdigits.2 c hc
        constructor <;> rintro rfl <;> exact absurd hdigit (by decide)
    case isFalse => cases hcode
  refine ⟨?_, hsafe⟩
  rw [hexCode?] at hcode ⊢
  rwa [(h.take hsafe).1]

/-- Whether characters of a string can be passed over in both texts: one of any kind, or several
that are no places for additions. -/
def Skippable (skip : Nat) (text : List Char) : Prop :=
  skip ≤ 1 ∨ ∀ c ∈ text.take skip, c ≠ ',' ∧ c ≠ '}'

/-- An escape takes the same number of characters. -/
theorem padded_escape {c d : Char} {value : Option Char} {count : Nat}
    (h : Padded (c :: p) (d :: q)) (hescape : escape c p = .ok (value, count)) :
    (∃ value', escape d q = .ok (value', count)) ∧ Skippable count (c :: p) := by
  cases h with
  | space h =>
      cases hescape
      exact ⟨⟨_, rfl⟩, .inl (Nat.le_refl 1)⟩
  | semicolon h =>
      cases hescape
      exact ⟨⟨_, rfl⟩, .inl (Nat.le_refl 1)⟩
  | char _ h =>
      unfold escape at hescape ⊢
      split at hescape
      case h_1 =>
          cases hescape
          exact ⟨⟨_, rfl⟩, .inl (Nat.le_refl 1)⟩
      case h_2 =>
          have hdigit := h.any_head? (f := Char.isDigit) rfl
          have hfeed := h.head?_eq_iff (c := '\n') (by decide) (by decide)
          simp only [hdigit, hfeed]
          split at hescape
          case isTrue hhex =>
              rw [if_pos hhex]
              simp only at hescape ⊢
              cases hcode : hexCode? (if c = 'x' then 2 else 4) p with
              | none =>
                  rw [hcode] at hescape
                  cases hescape
              | some code =>
                  rw [hcode] at hescape
                  cases hescape
                  obtain ⟨hcode', hsafe⟩ := padded_hexCode? h hcode
                  rw [hcode']
                  refine ⟨⟨_, rfl⟩, .inr ?_⟩
                  rw [Nat.add_comm, List.take_succ_cons, List.forall_mem_cons]
                  refine ⟨?_, hsafe⟩
                  rcases hhex with rfl | rfl <;> decide
          case isFalse hhex =>
          rw [if_neg hhex]
          split at hescape
          case isTrue hzero =>
              rw [if_pos hzero]
              cases hescape
              exact ⟨⟨_, rfl⟩, .inl (Nat.le_refl 1)⟩
          case isFalse hzero =>
          rw [if_neg hzero]
          split at hescape
          case isTrue hreturn =>
              rw [if_pos hreturn]
              cases hescape
              refine ⟨⟨_, rfl⟩, .inr ?_⟩
              obtain ⟨tail, htail⟩ := List.head?_eq_some_iff.mp hreturn.2
              rw [hreturn.1, htail, List.take_succ_cons, List.take_succ_cons, List.take_zero]
              simp
          case isFalse hreturn =>
          rw [if_neg hreturn]
          split at hescape
          case isTrue hbreak =>
              rw [if_pos hbreak]
              cases hescape
              exact ⟨⟨_, rfl⟩, .inl (Nat.le_refl 1)⟩
          case isFalse hbreak =>
              rw [if_neg hbreak]
              cases hescape
              exact ⟨⟨_, rfl⟩, .inl (Nat.le_refl 1)⟩

theorem stringBody_cons (quote c : Char) (acc : List Char) (length : Nat) (rest : List Char) :
    stringBody quote 0 acc length (c :: rest) =
      if c = quote then .ok (acc.reverse, length + 1)
      else if c = '\\' then
        match rest with
        | [] => .error .unterminatedString
        | letter :: after =>
          match escape letter after with
          | .ok (value, count) => stringBody quote count (value.toList ++ acc) (length + 1) rest
          | .error cause => .error cause
      else if isLineBreak c then .error .unterminatedString
      else stringBody quote 0 (c :: acc) (length + 1) rest := by
  cases rest <;> rfl

theorem stringBody_plain {quote c : Char} (hquote : quote = '"' ∨ quote = '\'')
    (hc : c ∈ [',', ' ', '}', ';']) (acc : List Char) (length : Nat) (rest : List Char) :
    stringBody quote 0 acc length (c :: rest) =
      stringBody quote 0 (c :: acc) (length + 1) rest := by
  simp only [List.mem_cons, List.not_mem_nil, or_false] at hc
  rcases hquote with rfl | rfl <;> rcases hc with rfl | rfl | rfl | rfl <;> rfl

theorem Skippable.tail {c : Char} {skip : Nat} (h : Skippable (skip + 1) (c :: p)) :
    Skippable skip p := by
  rcases h with h | h
  · exact .inl (by omega)
  · rw [List.take_succ_cons, List.forall_mem_cons] at h
    exact .inr h.2

theorem Skippable.eq_zero {c : Char} {skip : Nat} (hc : c = ',' ∨ c = '}')
    (h : Skippable (skip + 1) (c :: p)) : skip = 0 := by
  rcases h with h | h
  · omega
  · rw [List.take_succ_cons, List.forall_mem_cons] at h
    rcases hc with rfl | rfl
    · exact absurd rfl h.1.1
    · exact absurd rfl h.1.2

/-- A string with additions is a string, and ends with the same quote. -/
theorem padded_stringBody {quote : Char} (hquote : quote = '"' ∨ quote = '\'') (h : Padded p q)
    {skip : Nat} (hskip : Skippable skip p) {acc chars : List Char} {length n : Nat}
    (hbody : stringBody quote skip acc length p = .ok (chars, n)) (acc' : List Char)
    (length' : Nat) : ∃ k k' chars', n = length + k ∧
      stringBody quote skip acc' length' q = .ok (chars', length' + k') ∧
      Padded (p.drop k) (q.drop k') := by
  induction h generalizing skip acc length acc' length' with
  | nil => cases hbody
  | @char c plain padded h ih =>
      have hnext : ∀ {skip : Nat} {acc : List Char} (acc' : List Char), Skippable skip plain →
          stringBody quote skip acc (length + 1) plain = .ok (chars, n) →
          ∃ k k' chars', n = length + k ∧
            stringBody quote skip acc' (length' + 1) padded = .ok (chars', length' + k') ∧
            Padded ((c :: plain).drop k) ((c :: padded).drop k') := by
        intro skip acc acc' hskip hbody
        obtain ⟨k, k', chars', hn, hbody', hrest⟩ := ih hskip hbody acc' (length' + 1)
        refine ⟨k + 1, k' + 1, chars', by omega, ?_, hrest⟩
        rw [hbody', Nat.add_right_comm, Nat.add_assoc]
      cases skip with
      | succ skip => exact hnext acc' hskip.tail hbody
      | zero =>
          by_cases hclose : c = quote
          · rw [stringBody_cons, if_pos hclose] at hbody
            cases hbody
            refine ⟨1, 1, acc'.reverse, rfl, ?_, h⟩
            rw [stringBody_cons, if_pos hclose]
          by_cases hescape : c = '\\'
          · rw [stringBody_cons, if_neg hclose, if_pos hescape] at hbody
            rw [stringBody_cons, if_neg hclose, if_pos hescape]
            cases plain with
            | nil => cases hbody
            | cons letter after =>
                obtain ⟨letter', after', rfl⟩ : ∃ letter' after', padded = letter' :: after' := by
                  cases h <;> exact ⟨_, _, rfl⟩
                simp only at hbody ⊢
                cases hvalue : escape letter after with
                | error cause =>
                    rw [hvalue] at hbody
                    cases hbody
                | ok result =>
                    obtain ⟨value, count⟩ := result
                    obtain ⟨⟨value', hvalue'⟩, hcount⟩ := padded_escape h hvalue
                    rw [hvalue] at hbody
                    rw [hvalue']
                    exact hnext _ hcount hbody
          rw [stringBody_cons, if_neg hclose, if_neg hescape] at hbody
          rw [stringBody_cons, if_neg hclose, if_neg hescape]
          split at hbody
          case isTrue => cases hbody
          case isFalse hbreak =>
              rw [if_neg hbreak]
              exact hnext _ (.inl (Nat.zero_le 1)) hbody
  | @space plain padded h ih =>
      have hnext : ∀ {acc : List Char} (acc' : List Char),
          stringBody quote 0 acc (length + 1) plain = .ok (chars, n) →
          ∃ k k' chars', n = length + k ∧
            stringBody quote 0 acc' (length' + 1) (' ' :: padded) = .ok (chars', length' + k') ∧
            Padded ((',' :: plain).drop k) ((',' :: ' ' :: padded).drop k') := by
        intro acc acc' hbody
        obtain ⟨k, k', chars', hn, hbody', hrest⟩ :=
          ih (.inl (Nat.zero_le 1)) hbody (' ' :: acc') (length' + 2)
        refine ⟨k + 1, k' + 2, chars', by omega, ?_, hrest⟩
        rw [stringBody_plain hquote (by decide), hbody', Nat.add_right_comm, Nat.add_assoc]
      cases skip with
      | succ skip =>
          obtain rfl := hskip.eq_zero (.inl rfl)
          exact hnext acc' hbody
      | zero =>
          rw [stringBody_plain hquote (by decide)] at hbody ⊢
          exact hnext _ hbody
  | @semicolon plain padded h ih =>
      have hnext : ∀ {acc : List Char} (acc' : List Char),
          stringBody quote 0 acc (length + 1) plain = .ok (chars, n) →
          ∃ k k' chars', n = length + k ∧
            stringBody quote 0 acc' (length' + 1) ('}' :: padded) = .ok (chars', length' + k') ∧
            Padded (('}' :: plain).drop k) ((';' :: '}' :: padded).drop k') := by
        intro acc acc' hbody
        obtain ⟨k, k', chars', hn, hbody', hrest⟩ :=
          ih (.inl (Nat.zero_le 1)) hbody ('}' :: acc') (length' + 2)
        refine ⟨k + 1, k' + 2, chars', by omega, ?_, hrest⟩
        rw [stringBody_plain hquote (by decide), hbody', Nat.add_right_comm, Nat.add_assoc]
      cases skip with
      | succ skip =>
          obtain rfl := hskip.eq_zero (.inr rfl)
          exact hnext acc' hbody
      | zero =>
          rw [stringBody_plain hquote (by decide)] at hbody ⊢
          exact hnext _ hbody

theorem regExpBody_plain {c : Char} (hc : c ∈ [',', ' ', '}', ';']) (inClass escaped : Bool)
    (length : Nat) (rest : List Char) : regExpBody inClass escaped length (c :: rest) =
      regExpBody inClass false (length + 1) rest := by
  simp only [List.mem_cons, List.not_mem_nil, or_false] at hc
  rcases hc with rfl | rfl | rfl | rfl <;> cases escaped <;> rfl

/-- A regular expression with additions ends with the same slash. -/
theorem padded_regExpBody (h : Padded p q) {inClass escaped : Bool} {length n : Nat}
    (hbody : regExpBody inClass escaped length p = some n) (length' : Nat) :
    ∃ k k', n = length + k ∧ regExpBody inClass escaped length' q = some (length' + k') ∧
      Padded (p.drop k) (q.drop k') := by
  induction h generalizing inClass escaped length length' with
  | nil => cases hbody
  | @char c plain padded h ih =>
      have hnext : ∀ {inClass escaped : Bool},
          regExpBody inClass escaped (length + 1) plain = some n → ∃ k k', n = length + k ∧
            regExpBody inClass escaped (length' + 1) padded = some (length' + k') ∧
            Padded ((c :: plain).drop k) ((c :: padded).drop k') := by
        intro inClass escaped hbody
        obtain ⟨k, k', hn, hbody', hrest⟩ := ih hbody (length' + 1)
        refine ⟨k + 1, k' + 1, by omega, ?_, hrest⟩
        rw [hbody', Nat.add_right_comm, Nat.add_assoc]
      rw [regExpBody] at hbody ⊢
      split at hbody
      · cases hbody
      rw [if_neg ‹_›]
      split at hbody
      · rw [if_pos ‹_›]
        exact hnext hbody
      rw [if_neg ‹_›]
      split at hbody
      · rw [if_pos ‹_›]
        exact hnext hbody
      rw [if_neg ‹_›]
      split at hbody
      · rw [if_pos ‹_›]
        exact hnext hbody
      rw [if_neg ‹_›]
      split at hbody
      · rw [if_pos ‹_›]
        exact hnext hbody
      rw [if_neg ‹_›]
      split at hbody
      · rw [if_pos ‹_›]
        exact ⟨1, 1, (Option.some.inj hbody).symm, rfl, h⟩
      · rw [if_neg ‹_›]
        exact hnext hbody
  | space h ih =>
      rw [regExpBody_plain (by decide)] at hbody
      obtain ⟨k, k', hn, hbody', hrest⟩ := ih hbody (length' + 2)
      refine ⟨k + 1, k' + 2, by omega, ?_, hrest⟩
      rw [regExpBody_plain (by decide), regExpBody_plain (by decide), hbody', Nat.add_right_comm,
        Nat.add_assoc]
  | semicolon h ih =>
      rw [regExpBody_plain (by decide)] at hbody
      obtain ⟨k, k', hn, hbody', hrest⟩ := ih hbody (length' + 2)
      refine ⟨k + 1, k' + 2, by omega, ?_, hrest⟩
      rw [regExpBody_plain (by decide), regExpBody_plain (by decide), hbody', Nat.add_right_comm,
        Nat.add_assoc]

/-! ### Gaps -/

theorem blockCommentEnd_cons (c : Char) (length : Nat) (rest : List Char) :
    blockCommentEnd length (c :: rest) =
      if c = '*' ∧ rest.head? = some '/' then some (length + 2)
      else blockCommentEnd (length + 1) rest := by
  split
  case isTrue hend =>
      obtain ⟨tail, rfl⟩ := List.head?_eq_some_iff.mp hend.2
      rw [hend.1, blockCommentEnd]
  case isFalse hend =>
      rw [blockCommentEnd]
      intro tail hc hrest
      exact hend ⟨hc, hrest ▸ rfl⟩

/-- A comment with additions ends with the same star and slash. -/
theorem padded_blockCommentEnd (h : Padded p q) {length n : Nat}
    (hend : blockCommentEnd length p = some n) (length' : Nat) :
    ∃ k k', n = length + k ∧ blockCommentEnd length' q = some (length' + k') ∧
      Padded (p.drop k) (q.drop k') := by
  induction h generalizing length length' with
  | nil => cases hend
  | @char c plain padded h ih =>
      have hslash := h.head?_eq_iff (c := '/') (by decide) (by decide)
      rw [blockCommentEnd_cons] at hend ⊢
      simp only [hslash]
      split at hend
      case isTrue hclose =>
          rw [if_pos hclose]
          obtain ⟨tail, rfl⟩ := List.head?_eq_some_iff.mp hclose.2
          cases h with
          | char _ h => exact ⟨2, 2, (Option.some.inj hend).symm, rfl, h⟩
      case isFalse hclose =>
          rw [if_neg hclose]
          obtain ⟨k, k', hn, hend', hrest⟩ := ih hend (length' + 1)
          refine ⟨k + 1, k' + 1, by omega, ?_, hrest⟩
          rw [hend', Nat.add_right_comm, Nat.add_assoc]
  | space h ih =>
      obtain ⟨k, k', hn, hend', hrest⟩ := ih hend (length' + 2)
      refine ⟨k + 1, k' + 2, by omega, ?_, hrest⟩
      exact hend'.trans (congrArg some (by omega))
  | semicolon h ih =>
      obtain ⟨k, k', hn, hend', hrest⟩ := ih hend (length' + 2)
      refine ⟨k + 1, k' + 2, by omega, ?_, hrest⟩
      exact hend'.trans (congrArg some (by omega))

/-- A gap takes a number of characters. -/
def Gap.Takes (gap : Gap) (n : Nat) : Prop :=
  gap = .blank ∧ n = 1 ∨ gap = .lineBreak n ∨ gap = .comment n

theorem drop_length_takeWhile (f : Char → Bool) (text : List Char) :
    text.drop (text.takeWhile f).length = text.dropWhile f := by
  induction text with
  | nil => rfl
  | cons c rest ih =>
      cases hc : f c with
      | true => rwa [List.takeWhile_cons_of_pos hc, List.dropWhile_cons_of_pos hc]
      | false =>
          have hnot : ¬ f c = true := by simp [hc]
          rw [List.takeWhile_cons_of_neg hnot, List.dropWhile_cons_of_neg hnot]
          rfl

theorem gap?_comma (rest : List Char) : gap? (',' :: rest) = none := rfl

theorem gap?_closeBrace (rest : List Char) : gap? ('}' :: rest) = none := rfl

theorem gap?_semicolon (rest : List Char) : gap? (';' :: rest) = none := rfl

/-- Where a text goes on without a gap, so it does with additions. -/
theorem padded_gap?_eq_none (h : Padded p q) (hgap : gap? p = none) : gap? q = none := by
  cases h with
  | nil => rfl
  | space => exact gap?_comma _
  | semicolon => exact gap?_semicolon _
  | @char c plain padded h =>
      have hfeed := h.head?_eq_iff (c := '\n') (by decide) (by decide)
      have hslash := h.head?_eq_iff (c := '/') (by decide) (by decide)
      have hstar := h.head?_eq_iff (c := '*') (by decide) (by decide)
      rw [gap?] at hgap ⊢
      simp only [hfeed, hslash, hstar]
      split at hgap
      · cases hgap
      rw [if_neg ‹_›]
      split at hgap
      · cases hgap
      rw [if_neg ‹_›]
      split at hgap
      · cases hgap
      rw [if_neg ‹_›]
      split at hgap
      · split at hgap <;> cases hgap
      rw [if_neg ‹_›]

/-- A gap with additions is a gap. -/
theorem padded_gap? (h : Padded p q) {gap : Gap} {n : Nat} (hgap : gap? p = some gap)
    (hn : gap.Takes n) : ∃ gap' n', gap? q = some gap' ∧ gap'.Takes n' ∧
      Padded (p.drop n) (q.drop n') := by
  cases h with
  | nil => cases hgap
  | space h => rw [gap?_comma] at hgap; cases hgap
  | semicolon h => rw [gap?_closeBrace] at hgap; cases hgap
  | @char c plain padded h =>
      have hfeed := h.head?_eq_iff (c := '\n') (by decide) (by decide)
      have hslash := h.head?_eq_iff (c := '/') (by decide) (by decide)
      have hstar := h.head?_eq_iff (c := '*') (by decide) (by decide)
      rw [gap?] at hgap ⊢
      simp only [hfeed, hslash, hstar]
      split at hgap
      case isTrue hblank =>
          cases hgap
          rw [if_pos hblank]
          obtain ⟨-, rfl⟩ := hn.resolve_right (by simp)
          exact ⟨_, 1, rfl, .inl ⟨rfl, rfl⟩, h⟩
      case isFalse hblank =>
      rw [if_neg hblank]
      split at hgap
      case isTrue hbreak =>
          cases hgap
          rw [if_pos hbreak]
          simp only [Gap.Takes, reduceCtorEq, false_and, Gap.lineBreak.injEq, false_or,
            or_false] at hn
          subst hn
          refine ⟨_, _, rfl, .inr (.inl rfl), ?_⟩
          split
          case isFalse => exact h
          case isTrue hpair =>
              obtain ⟨tail, rfl⟩ := List.head?_eq_some_iff.mp hpair.2
              cases h with
              | char _ h => exact h
      case isFalse hbreak =>
      rw [if_neg hbreak]
      split at hgap
      case isTrue hline =>
          cases hgap
          rw [if_pos hline]
          simp only [Gap.Takes, reduceCtorEq, false_and, Gap.comment.injEq, false_or] at hn
          subst hn
          refine ⟨_, _, rfl, .inr (.inr rfl), ?_⟩
          rw [drop_length_takeWhile, drop_length_takeWhile]
          exact (Padded.char c h).dropWhile rfl rfl rfl rfl
      case isFalse hline =>
      rw [if_neg hline]
      split at hgap
      case isFalse => cases hgap
      case isTrue hblock =>
          rw [if_pos hblock]
          split at hgap
          case h_2 =>
              cases hgap
              simp [Gap.Takes] at hn
          case h_1 length hend =>
              cases hgap
              simp only [Gap.Takes, reduceCtorEq, false_and, Gap.comment.injEq, false_or] at hn
              subst hn
              obtain ⟨tail, rfl⟩ := List.head?_eq_some_iff.mp hblock.2
              cases h with
              | char _ h =>
                  obtain ⟨k, k', hk, hend', hrest⟩ := padded_blockCommentEnd h hend 2
                  rw [List.drop_succ_cons, List.drop_zero] at hend ⊢
                  rw [hend']
                  refine ⟨_, 2 + k', rfl, .inr (.inr rfl), ?_⟩
                  rw [hk, Nat.add_comm 2, Nat.add_comm 2]
                  exact hrest

end Lexeme

/-! ### Forms of tokens -/

/-- A kind of token without the text of a string or a regular expression. -/
def TokenKind.sort : TokenKind → TokenKind
  | .string _ => .string ""
  | .regExp _ => .regExp ""
  | kind => kind

/-- A token without its place and without the text of a string or a regular expression. -/
def Token.form (t : Token) : TokenKind × Option Punctuator := (t.kind.sort, t.assignOp)

/-- A lexeme without its length and without the text of a string or a regular expression. -/
def Lexeme.form (l : Lexeme) : TokenKind × Option Punctuator := (l.kind.sort, l.assignOp)

theorem TokenKind.sort_eq_endOfInput {kind : TokenKind} :
    kind.sort = .endOfInput ↔ kind = .endOfInput := by
  cases kind <;> simp [sort]

theorem TokenKind.operandAfter_sort (kind : TokenKind) :
    kind.sort.operandAfter = kind.operandAfter := by
  cases kind <;> rfl

namespace Lexeme

variable {p q : List Char} {operand : Bool} {l : Lexeme}

theorem scan_comma (operand : Bool) (rest : List Char) :
    scan operand (',' :: rest) = .ok ⟨.punctuator .comma, none, 1⟩ := rfl

theorem scan_closeBrace (operand : Bool) (rest : List Char) :
    scan operand ('}' :: rest) = .ok ⟨.punctuator .closeBrace, none, 1⟩ := rfl

theorem scan_semicolon (operand : Bool) (rest : List Char) :
    scan operand (';' :: rest) = .ok ⟨.punctuator .semicolon, none, 1⟩ := rfl

theorem padded_regExp (h : Padded p q) (hregExp : regExp ('/' :: p) = .ok l) :
    ∃ l', regExp ('/' :: q) = .ok l' ∧ l'.form = l.form ∧
      Padded (('/' :: p).drop l.length) (('/' :: q).drop l'.length) := by
  unfold regExp at hregExp
  split at hregExp
  case h_1 => cases hregExp
  case h_2 n hbody =>
      obtain ⟨k, k', rfl, hbody', hrest⟩ := padded_regExpBody h hbody 1
      obtain ⟨hflags, hend⟩ := hrest.takeWhile (f := isNamePart) (by decide) (by decide) (by decide)
      cases hregExp
      rw [List.drop_drop, List.drop_drop] at hend
      unfold regExp
      rw [List.drop_one, List.tail_cons, hbody']
      refine ⟨_, rfl, rfl, ?_⟩
      simp only [plain, Nat.add_comm 1, Nat.add_right_comm _ 1, List.drop_succ_cons, hflags]
      exact hend

/-- What stands behind a token: the same text with additions, with the space of a comma before
them if the token is one. -/
def Follows (p q : List Char) : Prop := Padded p q ∨ ∃ q', q = ' ' :: q' ∧ Padded p q'

/-- A text with additions starts with a token of the same form, unless it starts with a semicolon
that was added. -/
theorem padded_scan (h : Padded p q) (hgap : gap? p = none) (hscan : scan operand p = .ok l) :
    (∃ l', scan operand q = .ok l' ∧ l'.form = l.form ∧
      Follows (p.drop l.length) (q.drop l'.length)) ∨
    ∃ plain padded, p = '}' :: plain ∧ q = ';' :: '}' :: padded ∧ Padded plain padded := by
  cases h with
  | nil =>
      cases hscan
      exact .inl ⟨_, rfl, rfl, .inl .nil⟩
  | semicolon h => exact .inr ⟨_, _, rfl, rfl, h⟩
  | space h =>
      rw [scan_comma] at hscan
      cases hscan
      exact .inl ⟨_, scan_comma operand _, rfl, .inr ⟨_, rfl, h⟩⟩
  | @char c plain padded h =>
      refine .inl ?_
      have hbreak : isLineBreak c = false := head_of_gap?_eq_none hgap c rfl
      have hdigit := h.any_head? (f := Char.isDigit) (by decide)
      simp only [scan, hbreak, Bool.false_eq_true, if_false, hdigit] at hscan ⊢
      split at hscan
      case isTrue hquote =>
          rw [if_pos hquote]
          cases hbody : stringBody c 0 [] 1 plain with
          | error cause => rw [hbody] at hscan; cases hscan
          | ok result =>
              rw [hbody] at hscan
              cases hscan
              obtain ⟨chars, n⟩ := result
              obtain ⟨k, k', chars', hn, hbody', hrest⟩ :=
                padded_stringBody hquote h (.inl (Nat.zero_le 1)) hbody [] 1
              rw [hbody']
              refine ⟨_, rfl, rfl, .inl ?_⟩
              simp only [Lexeme.plain, hn, Nat.add_comm 1, List.drop_succ_cons]
              exact hrest
      case isFalse hquote =>
      rw [if_neg hquote]
      split at hscan
      case isTrue hstart =>
          rw [if_pos hstart]
          cases hnumber : number (c :: plain) with
          | error cause => rw [hnumber] at hscan; cases hscan
          | ok result =>
              rw [hnumber] at hscan
              cases hscan
              obtain ⟨hnumber', hrest⟩ := padded_number h hnumber
              rw [hnumber']
              exact ⟨_, rfl, rfl, .inl hrest⟩
      case isFalse hstart =>
      rw [if_neg hstart]
      split at hscan
      case isTrue hname =>
          rw [if_pos hname]
          cases hscan
          obtain ⟨hword, hrest⟩ := padded_word (h.char c)
          rw [hword]
          exact ⟨_, rfl, rfl, .inl hrest⟩
      case isFalse hname =>
      rw [if_neg hname]
      split at hscan
      case isTrue hslash =>
          rw [if_pos hslash]
          obtain ⟨rfl, -⟩ := hslash
          obtain ⟨l', hregExp, hform, hrest⟩ := padded_regExp h hscan
          exact ⟨l', hregExp, hform, .inl hrest⟩
      case isFalse hslash =>
      rw [if_neg hslash]
      split at hscan
      case h_2 => cases hscan
      case h_1 s hs =>
          cases hscan
          obtain ⟨hs', hrest⟩ := padded_scan? h hs
          rw [hs']
          exact ⟨_, rfl, rfl, .inl hrest⟩

end Lexeme

/-! ### Reading tokens -/

namespace Cursor

variable {c c' d : Cursor} {operand : Bool} {t : Token} {tokens : List Token}

theorem pastGaps_of_unterminatedComment (hgap : gap? c.rest = some .unterminatedComment) :
    c.pastGaps = .error ⟨.lexical .unterminatedComment, c.line⟩ := by
  have hrest : (Stream.startingAt c).cursor.rest = c.rest := rfl
  rw [pastGaps, Stream.skipGaps, hrest, hgap]
  rfl

/-- The next token of a text with additions is where the text has its next token. -/
theorem padded_pastGaps (h : Padded c.rest c'.rest) (hpast : c.pastGaps = .ok d) :
    ∃ d', c'.pastGaps = .ok d' ∧ Padded d.rest d'.rest := by
  induction hlength : c.rest.length using Nat.strong_induction_on generalizing c c' with
  | h length ih =>
      subst hlength
      have hskip : ∀ {gap : Gap} {n : Nat}, gap? c.rest = some gap → gap.Takes n → 0 < n →
          ∃ d', c'.pastGaps = .ok d' ∧ Padded d.rest d'.rest := by
        intro gap n hgap hn hpos
        obtain ⟨gap', n', hgap', hn', hrest⟩ := padded_gap? h hgap hn
        rw [pastGaps_of_gap? hgap hn] at hpast
        rw [pastGaps_of_gap? hgap' hn']
        rw [← advance_rest, ← advance_rest] at hrest
        refine ih _ ?_ hrest hpast rfl
        have := List.length_pos_iff.mpr (gap?_progress hgap).1
        rw [advance_rest, List.length_drop]
        omega
      cases hgap : gap? c.rest with
      | none =>
          rw [pastGaps_of_gap?_eq_none hgap] at hpast
          obtain rfl : c = d := Except.ok.inj hpast
          exact ⟨c', pastGaps_of_gap?_eq_none (padded_gap?_eq_none h hgap), h⟩
      | some gap =>
          have hpos := (gap?_progress hgap).2
          cases gap with
          | blank => exact hskip hgap (.inl ⟨rfl, rfl⟩) Nat.one_pos
          | lineBreak n => exact hskip hgap (.inr (.inl rfl)) (hpos n (.inl rfl))
          | comment n => exact hskip hgap (.inr (.inr rfl)) (hpos n (.inr rfl))
          | unterminatedComment =>
              rw [pastGaps_of_unterminatedComment hgap] at hpast
              cases hpast

theorem follows_pastGaps (h : Follows c.rest c'.rest) (hpast : c.pastGaps = .ok d) :
    ∃ d', c'.pastGaps = .ok d' ∧ Padded d.rest d'.rest := by
  rcases h with h | ⟨rest, hrest, h⟩
  · exact padded_pastGaps h hpast
  · have hgap : gap? c'.rest = some .blank := by rw [hrest]; rfl
    rw [pastGaps_of_gap? hgap (.inl ⟨rfl, rfl⟩)]
    refine padded_pastGaps ?_ hpast
    rwa [advance_rest, hrest]

theorem tokenHere_of_scan {l : Lexeme} (hscan : Lexeme.scan operand c.rest = .ok l) :
    c.tokenHere operand = .ok ((Stream.startingAt c).tokenOf l, c.advance l.length) := by
  obtain ⟨_, hstream, -⟩ | ⟨l', hscan', -, htoken⟩ :=
    Stream.scanHere_tokenHere operand (.startingAt c)
  · rw [Stream.scanHere_eq (s := .startingAt c) hscan] at hstream
    cases hstream
  · obtain rfl : l = l' := Except.ok.inj (hscan.symm.trans hscan')
    exact htoken

/-- A token that is read is scanned behind the gaps. -/
theorem exists_scan_of_readToken (h : c.readToken operand = .ok (t, d)) :
    ∃ place l, c.pastGaps = .ok place ∧ Lexeme.scan operand place.rest = .ok l ∧
      t = (Stream.startingAt place).tokenOf l ∧ d = place.advance l.length := by
  rw [readToken] at h
  cases hgaps : c.pastGaps with
  | error fault => rw [hgaps] at h; cases h
  | ok place =>
      rw [hgaps] at h
      replace h : place.tokenHere operand = .ok (t, d) := h
      obtain ⟨_, -, herror⟩ | ⟨l, hscan, -, htoken⟩ :=
        Stream.scanHere_tokenHere operand (.startingAt place)
      · exact absurd (h.symm.trans herror) (by simp)
      · obtain ⟨ht, hd⟩ := Prod.mk.inj (Except.ok.inj (h.symm.trans htoken))
        exact ⟨place, l, rfl, hscan, ht, hd⟩

theorem readToken_of_scan {place : Cursor} {l : Lexeme} (hgaps : c.pastGaps = .ok place)
    (hscan : Lexeme.scan operand place.rest = .ok l) :
    c.readToken operand = .ok ((Stream.startingAt place).tokenOf l, place.advance l.length) := by
  rw [readToken, hgaps]
  exact tokenHere_of_scan hscan

/-- A token of a text is read from the text with additions, if not a semicolon that was added is
read there. Then the token is a closing brace and read behind it. -/
theorem follows_readToken (h : Follows c.rest c'.rest)
    (hread : c.readToken operand = .ok (t, d)) :
    (∃ t' d', c'.readToken operand = .ok (t', d') ∧ t'.form = t.form ∧
      Follows d.rest d'.rest) ∨
    t.form = (.punctuator .closeBrace, none) ∧
    ∃ semicolon between, c'.readToken operand = .ok (semicolon, between) ∧
      semicolon.form = (.punctuator .semicolon, none) ∧
      ∀ operand', ∃ t' d', between.readToken operand' = .ok (t', d') ∧ t'.form = t.form ∧
        Follows d.rest d'.rest := by
  obtain ⟨place, l, hgaps, hscan, rfl, rfl⟩ := exists_scan_of_readToken hread
  obtain ⟨place', hgaps', hplace⟩ := follows_pastGaps h hgaps
  obtain ⟨l', hscan', hform, hrest⟩ | ⟨plain, padded, hplain, hpadded, hrest⟩ :=
    padded_scan hplace (gap?_of_pastGaps hgaps) hscan
  · refine .inl ⟨_, _, readToken_of_scan hgaps' hscan', hform, ?_⟩
    rwa [advance_rest, advance_rest]
  · refine .inr ?_
    rw [hplain, scan_closeBrace] at hscan
    cases hscan
    have hsemicolon : Lexeme.scan operand place'.rest = .ok ⟨.punctuator .semicolon, none, 1⟩ := by
      rw [hpadded, scan_semicolon]
    have hbetween : (place'.advance 1).rest = '}' :: padded := by rw [advance_rest, hpadded]; rfl
    refine ⟨rfl, _, _, readToken_of_scan hgaps' hsemicolon, rfl, fun operand' => ?_⟩
    have hgap : gap? (place'.advance 1).rest = none := by rw [hbetween, gap?_closeBrace]
    have hbrace : Lexeme.scan operand' (place'.advance 1).rest =
        .ok ⟨.punctuator .closeBrace, none, 1⟩ := by
      rw [hbetween, scan_closeBrace]
    refine ⟨_, _, readToken_of_scan (pastGaps_of_gap?_eq_none hgap) hbrace, rfl, .inl ?_⟩
    rw [advance_rest, advance_rest, hbetween, hplain]
    exact hrest

/-- From a place on the text has the given tokens, up to its end. -/
inductive Reads : Cursor → Bool → List Token → Prop where
  | nil {c d : Cursor} {operand : Bool} {t : Token} : c.readToken operand = .ok (t, d) →
      t.kind = .endOfInput → Reads c operand []
  | cons {c d : Cursor} {operand : Bool} {t : Token} {tokens : List Token} :
      c.readToken operand = .ok (t, d) → t.kind ≠ .endOfInput →
      Reads d t.kind.operandAfter tokens → Reads c operand (t :: tokens)

end Cursor

/-- Tokens are the given ones with a semicolon before some closing braces. -/
inductive Token.Separated : List (TokenKind × Option Punctuator) →
    List (TokenKind × Option Punctuator) → Prop where
  | nil : Separated [] []
  | token (form : TokenKind × Option Punctuator)
      {plain separated : List (TokenKind × Option Punctuator)} :
      Separated plain separated → Separated (form :: plain) (form :: separated)
  | semicolon {plain separated : List (TokenKind × Option Punctuator)} :
      Separated plain separated → Separated ((.punctuator .closeBrace, none) :: plain)
        ((.punctuator .semicolon, none) :: (.punctuator .closeBrace, none) :: separated)

theorem Token.kind_sort_of_form {t t' : Token} (h : t'.form = t.form) :
    t'.kind.sort = t.kind.sort :=
  congrArg Prod.fst h

theorem Cursor.Reads.separated {c c' : Cursor} {operand : Bool} {tokens : List Token}
    (h : c.Reads operand tokens) (hfollows : Follows c.rest c'.rest) :
    ∃ tokens', c'.Reads operand tokens' ∧
      Token.Separated (tokens.map Token.form) (tokens'.map Token.form) := by
  have hsame {t t' : Token} (hform : t'.form = t.form) :
      (t'.kind = .endOfInput ↔ t.kind = .endOfInput) ∧
        t'.kind.operandAfter = t.kind.operandAfter := by
    have hsort := Token.kind_sort_of_form hform
    rw [← TokenKind.sort_eq_endOfInput, ← TokenKind.operandAfter_sort, hsort,
      TokenKind.sort_eq_endOfInput, TokenKind.operandAfter_sort]
    exact ⟨.rfl, rfl⟩
  induction h generalizing c' with
  | nil hread hkind =>
      obtain ⟨t', d', hread', hform, -⟩ | ⟨hform, -⟩ := follows_readToken hfollows hread
      · exact ⟨[], .nil hread' ((hsame hform).1.mpr hkind), .nil⟩
      · have := congrArg Prod.fst hform
        rw [Token.form, hkind] at this
        cases this
  | cons hread hkind _ ih =>
      obtain ⟨t', d', hread', hform, hrest⟩ |
          ⟨hbrace, semicolon, between, hread', hsemicolon, hbehind⟩ :=
        follows_readToken hfollows hread
      · obtain ⟨tokens', htokens', hseparated⟩ := ih hrest
        refine ⟨t' :: tokens', .cons hread' (mt (hsame hform).1.mp hkind) ?_, ?_⟩
        · rwa [(hsame hform).2]
        · rw [List.map_cons, List.map_cons, hform]
          exact .token _ hseparated
      · obtain ⟨t', d', hbrace', hform, hrest⟩ := hbehind semicolon.kind.operandAfter
        obtain ⟨tokens', htokens', hseparated⟩ := ih hrest
        have hkind' := mt (hsame hform).1.mp hkind
        refine ⟨semicolon :: t' :: tokens', .cons hread' ?_ (.cons hbrace' hkind' ?_), ?_⟩
        · intro hend
          have := congrArg Prod.fst hsemicolon
          rw [Token.form, hend] at this
          cases this
        · rwa [(hsame hform).2]
        · rw [List.map_cons, List.map_cons, List.map_cons, hform, hsemicolon, hbrace]
          exact .semicolon hseparated

namespace Stream

end Stream

end ScriptMin
