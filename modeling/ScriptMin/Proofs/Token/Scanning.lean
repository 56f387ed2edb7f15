import Mathlib.Data.List.Find
import ScriptMin.Proofs.Token.Numerals
import ScriptMin.Token.Stream

/-!
Texts as sequences of tokens. An atom is what the grammar sees of a token: its kind and the
operator of a compound assignment. A text is readable as a list of atoms if the scanner takes
these atoms off it one after the other.
-/

namespace ScriptMin

open Text

/-- A token without its place. -/
structure Atom where
  kind : TokenKind
  op : Option Punctuator := none
  deriving DecidableEq

namespace Atom

def ending : Atom := ⟨.endOfInput, none⟩

def first (atoms : List Atom) : Atom := atoms.headD ending

@[simp] theorem first_nil : first [] = ending := rfl

@[simp] theorem first_cons (a : Atom) (atoms : List Atom) : first (a :: atoms) = a := rfl

/-- Whether an atom is read as itself where an operand is wanted, or not wanted. -/
def admits (a : Atom) (operand : Bool) : Bool :=
  !(⟨a.kind, default, 0, a.op⟩ : Token).dependsOnOperand operand

end Atom

/-- A token is a given atom in some place. -/
structure Token.Is (t : Token) (a : Atom) : Prop where
  kind : t.kind = a.kind
  op : t.assignOp = a.op

theorem Token.Is.dependsOnOperand {t : Token} {a : Atom} (h : t.Is a) (operand : Bool) :
    t.dependsOnOperand operand = !a.admits operand := by
  simp only [Token.dependsOnOperand, Atom.admits, h.kind, h.op, Bool.not_not]

theorem Token.Is.isPunctuator {t : Token} {a : Atom} (h : t.Is a) (p : Punctuator) :
    t.isPunctuator p = (a.kind == .punctuator p) := by
  rw [Token.isPunctuator, h.kind]

theorem Token.Is.isKeyword {t : Token} {a : Atom} (h : t.Is a) (k : Keyword) :
    t.isKeyword k = (a.kind == .keyword k) := by
  rw [Token.isKeyword, h.kind]

/-! ### Readable texts -/

namespace Lexeme

def dropBlanks (text : List Char) : List Char := text.dropWhile isBlank

/-- A text starts with an atom, up to blanks, and goes on with the given rest. -/
structure Starts (text : List Char) (a : Atom) (rest : List Char) : Prop where
  no_gap : gap? (dropBlanks text) = none
  scans : ∀ operand, a.admits operand → ∃ length,
    scan operand (dropBlanks text) = .ok ⟨a.kind, a.op, length⟩ ∧
      (dropBlanks text).drop length = rest

/-- A text is made of the given atoms. -/
inductive Readable : List Char → List Atom → Prop where
  | nil {text : List Char} : dropBlanks text = [] → Readable text []
  | cons {text rest : List Char} {a : Atom} {atoms : List Atom} :
      Starts text a rest → Readable rest atoms → Readable text (a :: atoms)

/-- The scanner finds the first atom of a readable text. -/
theorem Readable.first {text : List Char} {atoms : List Atom} (h : Readable text atoms) :
    ∃ rest, Starts text (Atom.first atoms) rest ∧
      (Readable rest atoms.tail) := by
  cases h with
  | nil hnil =>
      refine ⟨[], ⟨by rw [hnil]; rfl, fun operand _ => ⟨0, ?_, ?_⟩⟩, .nil rfl⟩
      · rw [hnil]
        rfl
      · rw [hnil]
        rfl
  | cons hstart hrest => exact ⟨_, hstart, hrest⟩

theorem dropBlanks_blank_cons {c : Char} (hc : isBlank c) (text : List Char) :
    dropBlanks (c :: text) = dropBlanks text :=
  List.dropWhile_cons_of_pos hc

theorem dropBlanks_of_head {text : List Char} (h : ∀ c ∈ text.head?, isBlank c = false) :
    dropBlanks text = text := by
  cases text with
  | nil => rfl
  | cons c text =>
      have hc := h c rfl
      exact List.dropWhile_cons_of_neg (by simp [hc])

theorem Readable.blank {c : Char} (hc : isBlank c) {text : List Char} {atoms : List Atom}
    (h : Readable text atoms) : Readable (c :: text) atoms := by
  have hdrop := dropBlanks_blank_cons hc text
  cases h with
  | nil hnil => exact .nil (hdrop ▸ hnil)
  | cons hstart hrest =>
      exact .cons ⟨hdrop ▸ hstart.no_gap, hdrop ▸ hstart.scans⟩ hrest

/-- A text that starts with a token of its own is readable if the rest is. -/
theorem Readable.append {token rest : List Char} {a : Atom} {atoms : List Atom}
    (hgap : gap? (token ++ rest) = none)
    (hscan : ∀ operand, a.admits operand →
      scan operand (token ++ rest) = .ok ⟨a.kind, a.op, token.length⟩)
    (h : Readable rest atoms) : Readable (token ++ rest) (a :: atoms) := by
  have hdrop : dropBlanks (token ++ rest) = token ++ rest := by
    apply dropBlanks_of_head
    intro c hc
    cases hblank : isBlank c with
    | false => rfl
    | true =>
        obtain ⟨tail, htail⟩ := List.head?_eq_some_iff.mp hc
        rw [htail, gap?, if_pos hblank] at hgap
        cases hgap
  refine .cons ⟨by rw [hdrop, hgap], fun operand ha => ⟨token.length, ?_, ?_⟩⟩ h
  · rw [hdrop, hscan operand ha]
  · rw [hdrop, List.drop_left]

theorem gap?_eq_none {text : List Char} {c : Char} (hc : text.head? = some c)
    (hblank : isBlank c = false) (hbreak : isLineBreak c = false)
    (hslash : c = '/' → ∀ d ∈ text.tail.head?, d ≠ '/' ∧ d ≠ '*') : gap? text = none := by
  obtain ⟨tail, rfl⟩ := List.head?_eq_some_iff.mp hc
  have hno : ∀ d, d = '/' ∨ d = '*' → ¬ (c = '/' ∧ tail.head? = some d) := by
    rintro d hd ⟨hc, htail⟩
    have := hslash hc d htail
    rcases hd with rfl | rfl
    · exact this.1 rfl
    · exact this.2 rfl
  simp only [gap?, hblank, hbreak, hno '/' (.inl rfl), hno '*' (.inr rfl), if_false,
    Bool.false_eq_true]

end Lexeme

/-! ### Words -/

namespace Text

def isName (name : String) : Bool :=
  match name.toList with
  | [] => false
  | c :: rest => isNameStart c && rest.all isNamePart

def wordKind (name : String) : TokenKind :=
  match Keyword.ofText? name with
  | some keyword => .keyword keyword
  | none => .identifier name

theorem exists_cons_of_isName {name : String} (h : isName name) :
    ∃ c rest, name.toList = c :: rest ∧ isNameStart c ∧ ∀ d ∈ rest, isNamePart d := by
  unfold isName at h
  split at h
  case h_1 => cases h
  case h_2 c rest heq =>
      rw [Bool.and_eq_true, List.all_eq_true] at h
      exact ⟨c, rest, heq, h⟩

theorem isNamePart_of_mem_isName {name : String} (h : isName name) {c : Char}
    (hc : c ∈ name.toList) : isNamePart c := by
  obtain ⟨first, rest, heq, hfirst, hrest⟩ := exists_cons_of_isName h
  rw [heq] at hc
  rcases List.mem_cons.mp hc with rfl | hc
  · exact isNamePart_of_isNameStart hfirst
  · exact hrest c hc

theorem ne_of_isNameStart {c : Char} (h : isNameStart c) :
    isBlank c = false ∧ isLineBreak c = false ∧ ¬ (c = '"' ∨ c = '\'') ∧ c ≠ '/' ∧ c ≠ '.' := by
  have signs : ∀ d ∈ [' ', '\t', '\x0b', '\x0c', '\u00a0', '\ufeff', '\n', '\r', '\u2028',
      '\u2029', '"', '\'', '/', '.'], !isNameStart d := List.all_eq_true.mp (by decide +kernel)
  have hne : ∀ d ∈ [' ', '\t', '\x0b', '\x0c', '\u00a0', '\ufeff', '\n', '\r', '\u2028',
      '\u2029', '"', '\'', '/', '.'], c ≠ d := by
    rintro d hd rfl
    exact absurd h (by simpa using signs c hd)
  simp only [List.forall_mem_cons] at hne
  simp [isBlank, isLineBreak, hne]

theorem isLineBreak_eq_false_of_isNamePart {c : Char} (h : isNamePart c) :
    isLineBreak c = false := by
  have breaks : ∀ d ∈ ['\n', '\r', '\u2028', '\u2029'], !isNamePart d :=
    List.all_eq_true.mp (by decide +kernel)
  have hne : ∀ d ∈ ['\n', '\r', '\u2028', '\u2029'], c ≠ d := by
    rintro d hd rfl
    exact absurd h (by simpa using breaks c hd)
  simp only [List.forall_mem_cons] at hne
  simp [isLineBreak, hne]

theorem isDigit_eq_false_of_isNameStart {c : Char} (h : isNameStart c) : c.isDigit = false := by
  cases hdigit : c.isDigit with
  | false => rfl
  | true =>
      have hrange : 48 ≤ c.toNat ∧ c.toNat ≤ 57 := by
        simpa [Char.isDigit, UInt32.le_iff_toNat_le] using hdigit
      have hcases : c = Char.ofNat c.toNat := (Char.ofNat_toNat c).symm
      have all : ∀ n ≤ 57, 48 ≤ n → isNameStart (Char.ofNat n) = false := by decide
      rw [hcases, all c.toNat hrange.2 hrange.1] at h
      cases h

end Text

namespace Lexeme

theorem takeWhile_isNamePart_append {name rest : List Char} (hname : ∀ c ∈ name, isNamePart c)
    (hrest : ∀ c ∈ rest.head?, isNamePart c = false) :
    (name ++ rest).takeWhile isNamePart = name := by
  rw [List.takeWhile_append_of_pos hname]
  cases rest with
  | nil => simp
  | cons c rest => simp [hrest c rfl]

theorem scan_word (operand : Bool) {name : String} (h : isName name) {rest : List Char}
    (hrest : ∀ c ∈ rest.head?, isNamePart c = false) :
    scan operand (name.toList ++ rest) = .ok ⟨wordKind name, none, name.toList.length⟩ := by
  have htake := takeWhile_isNamePart_append (fun c hc => isNamePart_of_mem_isName h hc) hrest
  have hword : word (name.toList ++ rest) = ⟨wordKind name, none, name.toList.length⟩ := by
    simp only [word, htake, String.ofList_toList, wordKind]
    cases Keyword.ofText? name <;> rfl
  obtain ⟨c, tail, heq, hc, -⟩ := exists_cons_of_isName h
  obtain ⟨-, hbreak, hquote, -, hpoint⟩ := ne_of_isNameStart hc
  have hdigit := isDigit_eq_false_of_isNameStart hc
  rw [heq, List.cons_append] at hword ⊢
  simp only [scan, hbreak, hquote, hdigit, hpoint, hc, hword, if_true, if_false, false_and,
    or_self, Bool.false_eq_true]

theorem readable_word {name : String} (h : isName name) {rest : List Char} {atoms : List Atom}
    (hrest : ∀ c ∈ rest.head?, isNamePart c = false) (hreads : Readable rest atoms) :
    Readable (name.toList ++ rest) (⟨wordKind name, none⟩ :: atoms) := by
  obtain ⟨c, tail, heq, hc, -⟩ := exists_cons_of_isName h
  obtain ⟨hblank, hbreak, -, hslash, -⟩ := ne_of_isNameStart hc
  refine .append (gap?_eq_none (c := c) (by simp [heq]) hblank hbreak ?_) ?_ hreads
  · exact fun hc => absurd hc hslash
  · exact fun operand _ => scan_word operand h hrest

/-! ### Literals -/

theorem gap?_quote (threshold : Nat) (text : String) (rest : List Char) :
    gap? ((quote threshold text).toList ++ rest) = none := by
  refine gap?_eq_none (c := chooseQuote text.toList) (by simp [quote]) ?_ ?_ ?_
  all_goals rcases chooseQuote_cases text.toList with hq | hq <;> rw [hq]
  all_goals first | rfl | exact fun h => absurd h (by decide)

theorem readable_quote {threshold : Nat} {text : String}
    (h : ∀ c ∈ text.toList, c.toNat ≤ 0xffff ∨ c.toNat < threshold) {rest : List Char}
    {atoms : List Atom} (hreads : Readable rest atoms) :
    Readable ((quote threshold text).toList ++ rest) (⟨.string text, none⟩ :: atoms) :=
  .append (gap?_quote threshold text rest) (fun operand _ => scan_quote operand h rest) hreads

theorem readable_literal {v : Number} (hfinite : v.isFinite) (hsign : v.negative = false)
    (hback : v.ReadsBack) {rest : List Char} {atoms : List Atom}
    (hname : ∀ c ∈ rest.head?, isNamePart c = false)
    (hpoint : v.isBareLiteral → rest.head? ≠ some '.') (hreads : Readable rest atoms) :
    Readable (v.literal.toList ++ rest) (⟨.number v, none⟩ :: atoms) := by
  obtain ⟨c, tail, heq, hc⟩ := Number.literal_starts hfinite hsign
  have hplain : isBlank c = false ∧ isLineBreak c = false ∧ c ≠ '/' := by
    rcases hc with hc | rfl
    · exact ⟨(ne_of_isDigit hc).1, (ne_of_isDigit hc).2.1, (ne_of_isDigit hc).2.2.2⟩
    · decide
  refine .append (gap?_eq_none (c := c) (by simp [heq]) hplain.1 hplain.2.1 ?_) ?_ hreads
  · exact fun hc => absurd hc hplain.2.2
  · exact fun operand _ => Number.scan_literal operand hfinite hsign hback hname hpoint

end Lexeme

/-! ### Punctuators -/

namespace Punctuator

theorem scan?_spelling : ∀ s ∈ spellings, scan? s.chars = some s := by decide

/-- Whether no punctuator goes on with a character behind a given text. -/
def closedTo (text : List Char) (c : Char) : Bool :=
  !spellings.any fun s => (text ++ [c]).isPrefixOf s.chars

theorem scan?_append {text rest : List Char} (h : ∀ c ∈ rest.head?, closedTo text c) :
    scan? (text ++ rest) = scan? text := by
  cases rest with
  | nil => rw [List.append_nil]
  | cons c rest =>
      have hclosed : closedTo text c := h c rfl
      have hprefix : ∀ s ∈ spellings,
          s.chars.isPrefixOf (text ++ c :: rest) = s.chars.isPrefixOf text := by
        intro s hs
        have hnot : ¬ (text ++ [c]) <+: s.chars := by
          simp only [closedTo, Bool.not_eq_true', List.any_eq_false] at hclosed
          simpa using hclosed s hs
        rw [Bool.eq_iff_iff, List.isPrefixOf_iff_prefix, List.isPrefixOf_iff_prefix]
        constructor
        · intro hs'
          have hlong : text ++ [c] <+: text ++ c :: rest := ⟨rest, by simp⟩
          rcases List.prefix_or_prefix_of_prefix hs' hlong with hle | hle
          · rcases List.prefix_concat_iff.mp hle with heq | hle
            · exact absurd (heq ▸ List.prefix_rfl) hnot
            · exact hle
          · exact absurd hle hnot
        · exact fun hs' => hs'.trans (List.prefix_append text (c :: rest))
      exact List.find?_congr hprefix

def continuations : List Char := ['=', '+', '-', '&', '|', '<', '>']

theorem mem_continuations_of_spelling :
    ∀ s ∈ spellings, s.chars.tail.all (continuations.contains ·) := by decide

theorem closedTo_of_not_mem {text : List Char} (htext : text ≠ []) {c : Char}
    (hc : c ∉ continuations) : closedTo text c := by
  simp only [closedTo, Bool.not_eq_true', List.any_eq_false]
  intro s hs hprefix
  obtain ⟨more, heq⟩ := List.isPrefixOf_iff_prefix.mp hprefix
  obtain ⟨first, rest, rfl⟩ := List.exists_cons_of_ne_nil htext
  have htail := List.all_eq_true.mp (mem_continuations_of_spelling s hs) c (by simp [← heq])
  exact hc (List.contains_iff_mem.mp htail)

/-- What the text behind a punctuator must not start with, besides what would make it a
longer one: a digit behind a point makes a number, and two slashes a comment. -/
def keeps (text : List Char) (c : Char) : Bool :=
  closedTo text c && !(text == ['.'] && c.isDigit) &&
    !(text == ['/'] && (c == '/' || c == '*'))

theorem head_spelling {s : Spelling} (hs : s ∈ spellings) : ∃ c ∈ s.chars.head?,
    isBlank c = false ∧ isLineBreak c = false ∧ ¬ (c = '"' ∨ c = '\'') ∧ c.isDigit = false ∧
    isNameStart c = false ∧ (c = '.' → s.chars = ['.']) ∧
    (c = '/' → s = ⟨['/'], .slash, none⟩ ∨ s = ⟨['/', '='], .assign, some .slash⟩) := by
  have heads : ∀ s ∈ spellings, s.chars.head?.any fun c => decide (
      isBlank c = false ∧ isLineBreak c = false ∧ ¬ (c = '"' ∨ c = '\'') ∧ c.isDigit = false ∧
      isNameStart c = false ∧ (c = '.' → s.chars = ['.']) ∧
      (c = '/' → s = ⟨['/'], .slash, none⟩ ∨ s = ⟨['/', '='], .assign, some .slash⟩)) := by
    decide
  obtain ⟨c, hc, hhead⟩ := (Option.any_eq_true _ _).mp (heads s hs)
  exact ⟨c, hc, of_decide_eq_true hhead⟩

end Punctuator

namespace Lexeme

open Punctuator

theorem readable_spelling {s : Spelling} (hs : s ∈ spellings) {rest : List Char}
    {atoms : List Atom} (hrest : ∀ c ∈ rest.head?, keeps s.chars c) (hreads : Readable rest atoms) :
    Readable (s.chars ++ rest) (⟨.punctuator s.sign, s.op⟩ :: atoms) := by
  obtain ⟨c, hc, hblank, hbreak, hquote, hdigit, hname, hpoint, hslash⟩ := head_spelling hs
  obtain ⟨tail, htail⟩ := List.head?_eq_some_iff.mp hc
  have hscan : scan? (s.chars ++ rest) = some s := by
    rw [scan?_append, scan?_spelling s hs]
    intro d hd
    have := hrest d hd
    simp only [keeps, Bool.and_eq_true] at this
    exact this.1.1
  refine .append (gap?_eq_none (c := c) ?_ hblank hbreak ?_) ?_ hreads
  · simp [htail]
  · rintro rfl d hd
    rcases hslash rfl with rfl | rfl
    · have := hrest d hd
      simp only [keeps, Bool.and_eq_true, Bool.not_eq_true', Bool.and_eq_false_imp, beq_iff_eq,
        Bool.or_eq_false_iff, beq_eq_false_iff_ne] at this
      exact this.2 trivial
    · cases hd
      decide
  · intro operand hadmits
    have hdot : ¬ (c = '.' ∧ (tail ++ rest).head?.any Char.isDigit) := by
      rintro ⟨rfl, hnumber⟩
      have heq := hpoint rfl
      have htail' : tail = [] := by simpa [htail] using heq
      subst htail'
      obtain ⟨d, hd, hdigit⟩ := (Option.any_eq_true _ _).mp hnumber
      have := hrest d hd
      simp [keeps, heq, hdigit] at this
    have hoperand : ¬ (c = '/' ∧ operand = true) := by
      rintro ⟨rfl, rfl⟩
      rcases hslash rfl with rfl | rfl <;> exact absurd hadmits (by decide)
    rw [htail, List.cons_append] at hscan ⊢
    simp only [scan, hbreak, hquote, hdigit, hdot, hname, hoperand, hscan, if_false, or_self,
      Bool.false_eq_true, htail]

end Lexeme

end ScriptMin
