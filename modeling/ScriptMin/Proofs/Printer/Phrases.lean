import ScriptMin.Proofs.Printer.Pieces

/-!
Which pieces can stand behind each other. A phrase is a list of pieces that starts and ends
like an expression. Phrases are put together by operators, brackets and commas, and the text
stays readable at every seam.
-/

namespace ScriptMin

open Text Lexeme

namespace Punctuator

/-- Whether no longer punctuator, number or comment starts with a punctuator. -/
def isSealed (p : Punctuator) : Bool :=
  spellings.all (fun s => !p.text.toList.isPrefixOf s.chars || s.chars == p.text.toList) &&
    p != .dot && p != .slash

theorem keeps_of_isSealed {p : Punctuator} (h : p.isSealed) (c : Char) :
    keeps p.text.toList c := by
  simp only [isSealed, Bool.and_eq_true, List.all_eq_true, bne_iff_ne] at h
  have hclosed : closedTo p.text.toList c := by
    simp only [closedTo, Bool.not_eq_true', List.any_eq_false]
    intro s hs hprefix
    have hp : p.text.toList <+: s.chars :=
      (List.prefix_append _ [c]).trans (List.isPrefixOf_iff_prefix.mp hprefix)
    have hlength := (List.isPrefixOf_iff_prefix.mp hprefix).length_le
    have heq : s.chars = p.text.toList := by
      simpa [List.isPrefixOf_iff_prefix.mpr hp] using h.1.1 s hs
    rw [heq, List.length_append, List.length_singleton] at hlength
    omega
  have hdot : p.text.toList ≠ ['.'] := by
    have signs : ∀ p ∈ all, p ≠ .dot → p.text.toList ≠ ['.'] := by decide
    exact signs p (mem_all p) h.1.2
  have hslash : p.text.toList ≠ ['/'] := by
    have signs : ∀ p ∈ all, p ≠ .slash → p.text.toList ≠ ['/'] := by decide
    exact signs p (mem_all p) h.2
  simp [keeps, hclosed, hdot, hslash]

theorem keeps_of_not_mem {text : List Char} (htext : text ≠ []) {c : Char}
    (hc : c ∉ continuations) (hdigit : c.isDigit → text ≠ ['.'])
    (hslash : c ≠ '/' ∧ c ≠ '*') : keeps text c := by
  have hclosed := closedTo_of_not_mem htext hc
  cases hd : c.isDigit with
  | false => simp [keeps, hclosed, hd, hslash]
  | true => simp [keeps, hclosed, hdigit hd, hslash]

end Punctuator

namespace Printer

theorem isWordChar_of_isNamePart {c : Char} (h : isNamePart c) : isWordChar c := by
  by_cases hlow : c.toNat < 128
  · simp only [isNamePart, isAlphanumeric, isAlphabetic, isNumeric, hlow, if_true,
      Bool.or_eq_true] at h
    simp only [isWordChar, Char.isAlphanum, Bool.or_eq_true]
    grind
  · simp [isWordChar, Nat.le_of_not_lt hlow]

theorem runsTogether_of_isNamePart {last c : Char} (hlast : isNamePart last)
    (hc : isNamePart c) : runsTogether last c := by
  simp [runsTogether, isWordChar_of_isNamePart hlast, isWordChar_of_isNamePart hc]

namespace Piece

def starts : Piece → Bool
  | .word _ | .number _ | .string _ _ => true
  | .sign p =>
    (p matches .openParen | .openBracket | .openBrace | .bang | .tilde | .plus | .minus
      | .plusPlus | .minusMinus)
  | _ => false

def ends : Piece → Bool
  | .word _ | .number _ | .string _ _ => true
  | .sign p => (p matches .closeParen | .closeBracket | .closeBrace | .plusPlus | .minusMinus)
  | _ => false

/-- Whether an expression can stand behind a piece. -/
def leads : Piece → Bool
  | .word _ | .compound _ | .comma _ => true
  | .sign p => p != .dot
  | _ => false

/-- Whether a piece can stand behind an expression. -/
def trails : Piece → Bool
  | .word _ | .compound _ | .comma _ | .sign _ => true
  | _ => false

/-- Whether a piece is a number that a point would become a part of. -/
def isBare : Piece → Bool
  | .number value => value.isBareLiteral
  | _ => false

def startChars : List Char := ['.', '"', '\'', '(', '[', '\x7b', '!', '~', '+', '-']

theorem head_of_starts {q : Piece} (hq : q.Valid) (h : q.starts) :
    ∃ c ∈ q.text.head?, (isNameStart c ∨ c.isDigit) ∨ c ∈ startChars := by
  cases q with
  | word text =>
      obtain ⟨c, rest, heq, hc, -⟩ := exists_cons_of_isName hq
      exact ⟨c, by simp [Piece.text, heq], .inl (.inl hc)⟩
  | sign p =>
      have signs : ∀ p ∈ Punctuator.all, (Piece.sign p).starts →
          p.text.toList.head?.any (startChars.contains ·) := by decide
      obtain ⟨c, hc, hmem⟩ := (Option.any_eq_true _ _).mp (signs p (Punctuator.mem_all p) h)
      exact ⟨c, hc, .inr (List.contains_iff_mem.mp hmem)⟩
  | number value =>
      obtain ⟨c, rest, heq, hc⟩ := Number.literal_starts hq.1 hq.2.1
      refine ⟨c, by simp [Piece.text, heq], ?_⟩
      rcases hc with hc | rfl
      · exact .inl (.inr hc)
      · exact .inr (by decide)
  | string threshold text =>
      refine ⟨chooseQuote text.toList, by simp [Piece.text, quote], .inr ?_⟩
      rcases chooseQuote_cases text.toList with hq | hq <;> rw [hq] <;> decide
  | compound op => cases h
  | comma spaced => cases h

theorem last_of_word {text : String} (h : isName text) :
    ∃ c ∈ (Piece.word text).text.getLast?, isNamePart c := by
  have hne : text.toList ≠ [] := Piece.text_ne_nil (p := .word text) h
  exact ⟨text.toList.getLast hne, List.getLast?_eq_some_getLast hne,
    isNamePart_of_mem_isName h (List.getLast_mem hne)⟩

theorem not_mem_continuations {c : Char} (h : isNamePart c) :
    c ∉ Punctuator.continuations ∧ c ≠ '/' ∧ c ≠ '*' := by
  have signs : ∀ d ∈ ['=', '+', '-', '&', '|', '<', '>', '/', '*'], !isNamePart d :=
    List.all_eq_true.mp (by decide)
  have hne : ∀ d ∈ ['=', '+', '-', '&', '|', '<', '>', '/', '*'], c ≠ d := by
    rintro d hd rfl
    exact absurd h (by simpa using signs c hd)
  simp only [List.forall_mem_cons] at hne
  simp [Punctuator.continuations, hne]

/-- Of the signs that expressions start with, two can make another sign longer. -/
theorem keeps_of_startChar_or {c : Char} (hc : c ∈ startChars) {text : List Char}
    (htext : text ≠ []) : c = '+' ∨ c = '-' ∨ Punctuator.keeps text c := by
  have signs : startChars.all fun c => c == '+' || c == '-' ||
      !(Punctuator.continuations.contains c || c.isDigit || c == '/' || c == '*') := by decide
  have hsign := List.all_eq_true.mp signs c hc
  simp only [Bool.or_eq_true, beq_iff_eq, Bool.not_eq_true', Bool.or_eq_false_iff,
    beq_eq_false_iff_ne] at hsign
  rcases hsign with (hplus | hminus) | ⟨⟨⟨hmem, hdigit⟩, hslash⟩, hstar⟩
  · exact .inl hplus
  · exact .inr (.inl hminus)
  · refine .inr (.inr (Punctuator.keeps_of_not_mem htext ?_ ?_ ⟨hslash, hstar⟩))
    · exact fun h => Bool.eq_false_iff.mp hmem (List.contains_iff_mem.mpr h)
    · exact fun h => absurd h (by simp [hdigit])

theorem keeps_of_startChar {p : Punctuator} (hp : p ≠ .dot) {c : Char} (hc : c ∈ startChars) :
    p.text.toList.getLast?.any (runsTogether · c) || Punctuator.keeps p.text.toList c := by
  have signs : ∀ p ∈ Punctuator.all, p ≠ .dot → ['+', '-'].all fun c =>
      p.text.toList.getLast?.any (runsTogether · c) ||
        Punctuator.keeps p.text.toList c := by decide +kernel
  have hsign := List.all_eq_true.mp (signs p (Punctuator.mem_all p) hp)
  rcases keeps_of_startChar_or hc (text_ne_nil (p := .sign p) trivial) with hplus | hminus | hkeeps
  · exact hsign c (by simp [hplus])
  · exact hsign c (by simp [hminus])
  · exact Bool.or_eq_true _ _ |>.mpr (.inr hkeeps)

theorem compound_keeps_of_startChar {p : Punctuator} {c : Char} (hc : c ∈ startChars) :
    Punctuator.keeps (p.text.toList ++ ['=']) c := by
  have signs : ∀ p ∈ Punctuator.all,
      ['+', '-'].all (Punctuator.keeps (p.text.toList ++ ['=']) ·) := by decide +kernel
  have hsign := List.all_eq_true.mp (signs p (Punctuator.mem_all p))
  rcases @keeps_of_startChar_or c hc (p.text.toList ++ ['=']) (by simp) with
    hplus | hminus | hkeeps
  · exact hsign c (by simp [hplus])
  · exact hsign c (by simp [hminus])
  · exact hkeeps

/-- An expression can stand behind an operator. -/
theorem joins_of_starts {p q : Piece} (hp : p.Valid) (hleads : p.leads) (hq : q.Valid)
    (hstarts : q.starts) : p.joins q := by
  obtain ⟨c, hc, hclass⟩ := head_of_starts hq hstarts
  rw [joins, hc, Option.all_some]
  have hword : isNameStart c ∨ c.isDigit → isNamePart c :=
    fun h => h.elim isNamePart_of_isNameStart isNamePart_of_isDigit
  cases p with
  | word text =>
      obtain ⟨last, hlast, hpart⟩ := last_of_word hp
      rcases hclass with hname | hsign
      · simp [Option.mem_def.mp hlast, runsTogether_of_isNamePart hpart (hword hname)]
      · have signs : ∀ c ∈ startChars, !isNamePart c := List.all_eq_true.mp (by decide)
        simp [keeps, signs c hsign]
  | sign p =>
      have hdot : p ≠ .dot := by simpa [leads] using hleads
      rcases hclass with hname | hsign
      · obtain ⟨hmem, hslash⟩ := not_mem_continuations (hword hname)
        have hne : p.text.toList ≠ ['.'] := by
          have signs : ∀ p ∈ Punctuator.all, p ≠ .dot → p.text.toList ≠ ['.'] := by decide
          exact signs p (Punctuator.mem_all p) hdot
        have hkeeps := Punctuator.keeps_of_not_mem (text_ne_nil (p := .sign p) trivial) hmem
          (fun _ => hne) hslash
        exact Bool.or_eq_true _ _ |>.mpr (.inr hkeeps)
      · exact keeps_of_startChar hdot hsign
  | compound op =>
      rcases hclass with hname | hsign
      · obtain ⟨hmem, hslash⟩ := not_mem_continuations (hword hname)
        have hne : op.text.toList ++ ['='] ≠ ['.'] := fun h => by
          simpa using congrArg List.getLast? h
        have hkeeps := Punctuator.keeps_of_not_mem (by simp) hmem (fun _ => hne) hslash
        exact Bool.or_eq_true _ _ |>.mpr (.inr hkeeps)
      · exact Bool.or_eq_true _ _ |>.mpr (.inr (compound_keeps_of_startChar hsign))
  | comma spaced =>
      have hkeeps := Punctuator.keeps_of_isSealed (p := .comma) (by decide) c
      exact Bool.or_eq_true _ _ |>.mpr (.inr hkeeps)
  | number value => cases hleads
  | string threshold text => cases hleads

theorem head_of_trails {q : Piece} (hq : q.Valid) (h : q.trails) :
    ∃ c ∈ q.text.head?, isNamePart c ∨ isNamePart c = false ∧ (c = '.' → q = .sign .dot) := by
  have heads : ∀ s ∈ Punctuator.spellings, s.chars.head?.any fun c =>
      decide (isNamePart c = false ∧ (c = '.' → s = ⟨['.'], .dot, none⟩)) := by decide
  have hspelling : ∀ s ∈ Punctuator.spellings, ∃ c ∈ s.chars.head?,
      isNamePart c = false ∧ (c = '.' → s = ⟨['.'], .dot, none⟩) := by
    intro s hs
    obtain ⟨c, hc, hhead⟩ := (Option.any_eq_true _ _).mp (heads s hs)
    exact ⟨c, hc, of_decide_eq_true hhead⟩
  cases q with
  | word text =>
      obtain ⟨c, rest, heq, hc, -⟩ := exists_cons_of_isName hq
      exact ⟨c, by simp [Piece.text, heq], .inl (isNamePart_of_isNameStart hc)⟩
  | sign p =>
      obtain ⟨c, hc, hpart, hdot⟩ := hspelling _ (Punctuator.plain_mem_spellings p)
      refine ⟨c, hc, .inr ⟨hpart, fun h => ?_⟩⟩
      rw [(Punctuator.Spelling.mk.inj (hdot h)).2.1]
  | compound op =>
      obtain ⟨c, hc, hpart, hdot⟩ := hspelling _ (Punctuator.compound_mem_spellings op hq)
      refine ⟨c, hc, .inr ⟨hpart, fun h => ?_⟩⟩
      cases (Punctuator.Spelling.mk.inj (hdot h)).2.1
  | comma spaced =>
      refine ⟨',', ?_, .inr ⟨rfl, fun h => absurd h (by decide)⟩⟩
      cases spaced <;> rfl
  | number value => cases h
  | string threshold text => cases h

/-- An operator or bracket can stand behind an expression, but no point behind a number
that would swallow it. -/
theorem joins_of_ends {p q : Piece} (hp : p.Valid) (hends : p.ends) (hq : q.Valid)
    (htrails : q.trails) (hbare : p.isBare → q ≠ .sign .dot) : p.joins q := by
  obtain ⟨c, hc, hclass⟩ := head_of_trails hq htrails
  rw [joins, hc, Option.all_some, Bool.or_eq_true]
  cases p with
  | word text =>
      obtain ⟨last, hlast, hpart⟩ := last_of_word hp
      rcases hclass with hname | ⟨hsign, -⟩
      · left
        rw [Option.mem_def.mp hlast, Option.any_some]
        exact runsTogether_of_isNamePart hpart hname
      · right
        simp [keeps, hsign]
  | sign p =>
      have signs : ∀ p ∈ Punctuator.all, (Piece.sign p).ends → p.isSealed := by decide
      exact .inr (Punctuator.keeps_of_isSealed (signs p (Punctuator.mem_all p) hends) c)
  | number value =>
      rcases hclass with hname | ⟨hsign, hdot⟩
      · left
        have hne : value.literal.toList ≠ [] := text_ne_nil (p := .number value) hp
        have hlast := List.getLast?_eq_some_getLast hne
        have hdigit := Number.literal_ends hp.1 hp.2.1 _ hlast
        rw [Piece.text, hlast, Option.any_some]
        exact runsTogether_of_isNamePart (isNamePart_of_isDigit hdigit) hname
      · right
        cases hvalue : value.isBareLiteral with
        | false => simp [keeps, hsign, hvalue]
        | true =>
            have hpoint : c ≠ '.' := fun h => hbare hvalue (hdot h)
            simp [keeps, hsign, hpoint]
  | string threshold text => exact .inr rfl
  | compound op => cases hends
  | comma spaced => cases hends

end Piece

/-! ### Phrases -/

/-- Pieces that start and end like an expression, and that can stand behind each other. -/
structure Phrase (ps : List Piece) : Prop where
  valid : ∀ p ∈ ps, p.Valid
  chain : ps.IsChain fun p q => p.joins q
  starts : ∃ p ∈ ps.head?, p.starts
  ends : ∃ p ∈ ps.getLast?, p.ends

namespace Phrase

variable {ps qs : List Piece} {p : Piece}

theorem ne_nil (h : Phrase ps) : ps ≠ [] := by
  obtain ⟨p, hp, -⟩ := h.starts
  rintro rfl
  cases hp

theorem single (hvalid : p.Valid) (hstarts : p.starts) (hends : p.ends) : Phrase [p] where
  valid := by simpa using hvalid
  chain := .singleton p
  starts := ⟨p, rfl, hstarts⟩
  ends := ⟨p, rfl, hends⟩

theorem getLast?_append (h : Phrase qs) : (ps ++ qs).getLast? = qs.getLast? := by
  rw [List.getLast?_append, List.getLast?_eq_some_getLast h.ne_nil, Option.some_or]

theorem head?_append (h : Phrase ps) : (ps ++ qs).head? = ps.head? := by
  rw [List.head?_append, List.head?_eq_some_head h.ne_nil, Option.some_or]

theorem joins_head (h : Phrase ps) (hvalid : p.Valid) (hleads : p.leads) :
    ∀ q ∈ ps.head?, p.joins q := by
  intro q hq
  obtain ⟨first, hfirst, hstarts⟩ := h.starts
  cases hfirst.symm.trans hq
  exact Piece.joins_of_starts hvalid hleads (h.valid q (List.mem_of_head? hq)) hstarts

theorem joins_last (h : Phrase ps) (hvalid : p.Valid) (htrails : p.trails)
    (hdot : p ≠ .sign .dot ∨ ∀ q ∈ ps.getLast?, q.isBare = false) :
    ∀ q ∈ ps.getLast?, q.joins p := by
  intro q hq
  obtain ⟨last, hlast, hends⟩ := h.ends
  cases hlast.symm.trans hq
  refine Piece.joins_of_ends (h.valid q (List.mem_of_getLast? hq)) hends hvalid htrails ?_
  intro hbare
  exact hdot.resolve_right fun hsolid => by simp [hsolid q hq] at hbare

/-- An operator in front of a phrase. -/
theorem prepend (hvalid : p.Valid) (hstarts : p.starts) (hleads : p.leads) (h : Phrase ps) :
    Phrase (p :: ps) where
  valid := List.forall_mem_cons.mpr ⟨hvalid, h.valid⟩
  chain := h.chain.cons (h.joins_head hvalid hleads)
  starts := ⟨p, rfl, hstarts⟩
  ends := by
    rw [← List.singleton_append, h.getLast?_append]
    exact h.ends

/-- An operator or bracket behind a phrase. -/
theorem append (h : Phrase ps) (hvalid : p.Valid) (htrails : p.trails) (hends : p.ends) :
    Phrase (ps ++ [p]) where
  valid := List.forall_mem_append.mpr ⟨h.valid, by simpa using hvalid⟩
  chain := by
    have hdot : p ≠ .sign .dot := by
      rintro rfl
      cases hends
    refine h.chain.append (.singleton p) fun q hq q' hq' => ?_
    cases hq'
    exact h.joins_last hvalid htrails (.inl hdot) q hq
  starts := by
    rw [h.head?_append]
    exact h.starts
  ends := ⟨p, by simp, hends⟩

/-- Two phrases with an operator or bracket between them. -/
theorem between (h : Phrase ps) (hvalid : p.Valid) (htrails : p.trails) (hleads : p.leads)
    (h' : Phrase qs) : Phrase (ps ++ p :: qs) where
  valid := List.forall_mem_append.mpr
    ⟨h.valid, List.forall_mem_cons.mpr ⟨hvalid, h'.valid⟩⟩
  chain := by
    have hdot : p ≠ .sign .dot := by
      rintro rfl
      cases hleads
    refine h.chain.append (h'.chain.cons (h'.joins_head hvalid hleads)) fun q hq q' hq' => ?_
    cases hq'
    exact h.joins_last hvalid htrails (.inl hdot) q hq
  starts := by
    rw [h.head?_append]
    exact h.starts
  ends := by
    rw [← List.singleton_append, ← List.append_assoc, h'.getLast?_append]
    exact h'.ends

/-- A point and a name behind a phrase that does not end with a bare number. -/
theorem member (h : Phrase ps) (hsolid : ∀ p ∈ ps.getLast?, p.isBare = false) {name : String}
    (hname : isName name) : Phrase (ps ++ [.sign .dot, .word name]) where
  valid := List.forall_mem_append.mpr ⟨h.valid, by simpa [Piece.Valid] using hname⟩
  chain := by
    have hjoins : (Piece.sign .dot).joins (.word name) := by
      obtain ⟨c, rest, heq, hc, -⟩ := exists_cons_of_isName hname
      obtain ⟨hmem, hslash⟩ := Piece.not_mem_continuations (isNamePart_of_isNameStart hc)
      have hdigit := isDigit_eq_false_of_isNameStart hc
      have hkeeps := Punctuator.keeps_of_not_mem
        (show Punctuator.dot.text.toList ≠ [] by decide) hmem (by simp [hdigit]) hslash
      simp [Piece.joins, Piece.text, heq, Piece.keeps, hkeeps]
    refine h.chain.append (.cons_cons hjoins (.singleton _)) fun q hq q' hq' => ?_
    cases hq'
    exact h.joins_last (p := .sign .dot) trivial rfl (.inr hsolid) q hq
  starts := by
    rw [h.head?_append]
    exact h.starts
  ends := ⟨.word name, by simp, rfl⟩

end Phrase

/-! ### Lists -/

namespace Piece

def opensItem : Piece → Bool
  | .comma _ => true
  | .sign p => (p matches .openParen | .openBracket | .openBrace)
  | _ => false

def closesItem : Piece → Bool
  | .comma _ => true
  | .sign p => (p matches .closeParen | .closeBracket | .closeBrace | .semicolon)
  | _ => false

theorem joins_of_opensItem {p : Piece} (h : p.opensItem) (q : Piece) : p.joins q := by
  have hkeeps : ∀ c, p.keeps c := by
    intro c
    cases p with
    | comma spaced => exact Punctuator.keeps_of_isSealed (p := .comma) (by decide) c
    | sign p =>
        have signs : ∀ p ∈ Punctuator.all, (Piece.sign p).opensItem → p.isSealed := by
          decide
        exact Punctuator.keeps_of_isSealed (signs p (Punctuator.mem_all p) h) c
    | _ => cases h
  simp only [joins, hkeeps, Bool.or_true]
  cases q.text.head? <;> rfl

theorem valid_of_opensItem {p : Piece} (h : p.opensItem) : p.Valid := by
  cases p <;> trivial

theorem valid_of_closesItem {p : Piece} (h : p.closesItem) : p.Valid := by
  cases p <;> trivial

theorem trails_of_closesItem {p : Piece} (h : p.closesItem) : p.trails ∧ p ≠ .sign .dot := by
  cases p with
  | sign p => exact ⟨rfl, by rintro ⟨⟩; cases h⟩
  | comma spaced => exact ⟨rfl, nofun⟩
  | _ => cases h

theorem trails_of_opensItem {p : Piece} (h : p.opensItem) : p.trails ∧ p ≠ .sign .dot := by
  cases p with
  | sign p => exact ⟨rfl, by rintro ⟨⟩; cases h⟩
  | comma spaced => exact ⟨rfl, nofun⟩
  | _ => cases h

end Piece

/-- Pieces between brackets: phrases separated by commas, some of them left out. -/
structure Items (ps : List Piece) : Prop where
  valid : ∀ p ∈ ps, p.Valid
  chain : ps.IsChain fun p q => p.joins q
  ends : ∀ p ∈ ps.getLast?, ∀ q : Piece, q.closesItem → p.joins q

namespace Items

variable {ps qs : List Piece} {p : Piece}

theorem nil : Items [] := ⟨nofun, .nil, nofun⟩

theorem of_phrase (h : Phrase ps) : Items ps where
  valid := h.valid
  chain := h.chain
  ends := fun p hp _ hq =>
    h.joins_last (Piece.valid_of_closesItem hq) (Piece.trails_of_closesItem hq).1
      (.inl (Piece.trails_of_closesItem hq).2) p hp

theorem chain_cons (hp : p.opensItem) (h : Items ps) :
    (p :: ps).IsChain fun p q => p.joins q :=
  h.chain.cons fun q _ => Piece.joins_of_opensItem hp q

theorem ends_cons (hp : p.opensItem) (h : Items ps) :
    ∀ x ∈ (p :: ps).getLast?, ∀ q : Piece, q.closesItem → x.joins q := by
  intro x hx q hq
  cases ps with
  | nil =>
      cases hx
      exact Piece.joins_of_opensItem hp q
  | cons y ps => exact h.ends x hx q hq

/-- Two lists with a comma between them. -/
theorem comma (h : Items ps) (spaced : Bool) (h' : Items qs) :
    Items (ps ++ .comma spaced :: qs) where
  valid := List.forall_mem_append.mpr ⟨h.valid, List.forall_mem_cons.mpr ⟨trivial, h'.valid⟩⟩
  chain := by
    refine h.chain.append (chain_cons rfl h') fun x hx y hy => ?_
    cases hy
    exact h.ends x hx _ rfl
  ends := by
    rw [List.getLast?_append, List.getLast?_eq_some_getLast (List.cons_ne_nil _ _), Option.some_or,
      ← List.getLast?_eq_some_getLast]
    exact ends_cons rfl h'

/-- A list in brackets. -/
theorem enclose (hp : p.opensItem) (hstarts : p.starts) (h : Items ps) {q : Piece}
    (hq : q.closesItem) (hends : q.ends) : Phrase (p :: (ps ++ [q])) where
  valid := List.forall_mem_cons.mpr ⟨Piece.valid_of_opensItem hp,
    List.forall_mem_append.mpr ⟨h.valid, by simpa using Piece.valid_of_closesItem hq⟩⟩
  chain := by
    rw [← List.cons_append]
    refine (chain_cons hp h).append (.singleton q) fun x hx y hy => ?_
    cases hy
    exact ends_cons hp h x hx q hq
  starts := ⟨p, rfl, hstarts⟩
  ends := ⟨q, by rw [← List.cons_append, List.getLast?_concat, Option.mem_some_iff], hends⟩

/-- A list in brackets behind a phrase. -/
theorem apply (h : Phrase ps) (hp : p.opensItem) (hstarts : p.starts) (hi : Items qs) {q : Piece}
    (hq : q.closesItem) (hends : q.ends) : Phrase (ps ++ p :: (qs ++ [q])) := by
  have hlist := hi.enclose hp hstarts hq hends
  have htrails := Piece.trails_of_opensItem hp
  refine ⟨List.forall_mem_append.mpr ⟨h.valid, hlist.valid⟩, ?_, ?_, ?_⟩
  · refine h.chain.append hlist.chain fun x hx y hy => ?_
    cases hy
    exact h.joins_last (Piece.valid_of_opensItem hp) htrails.1 (.inl htrails.2) x hx
  · rw [h.head?_append]
    exact h.starts
  · rw [hlist.getLast?_append]
    exact hlist.ends

end Items

end Printer

end ScriptMin
