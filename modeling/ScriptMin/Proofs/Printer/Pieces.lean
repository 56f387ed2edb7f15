import Mathlib.Data.List.Chain
import ScriptMin.Printer.Output
import ScriptMin.Proofs.Token.Scanning

/-!
The pieces that a text is written in. Every piece is one token. Between two of them the
printer puts a space only where their characters would run together, so a text of pieces is
readable if no piece swallows the start of the next one.
-/

namespace ScriptMin

open Text Lexeme

/-! ### Vocabulary -/

namespace Punctuator

theorem mem_all (p : Punctuator) : p ∈ all := by
  cases p <;> decide

theorem plain_mem_spellings (p : Punctuator) : ⟨p.text.toList, p, none⟩ ∈ spellings := by
  have signs : ∀ p ∈ all, ⟨p.text.toList, p, none⟩ ∈ spellings := by decide
  exact signs p (mem_all p)

theorem compound_mem_spellings :
    ∀ p ∈ compounds, ⟨p.text.toList ++ ['='], .assign, some p⟩ ∈ spellings := by
  decide

end Punctuator

namespace Printer

/-- A piece of text that is one token. -/
inductive Piece where
  /-- A name or reserved word. -/
  | word (text : String)
  | sign (p : Punctuator)
  /-- A compound assignment. -/
  | compound (op : Punctuator)
  | number (value : Number)
  | string (threshold : Nat) (text : String)
  /-- A comma, perhaps with a space behind it. -/
  | comma (spaced : Bool)

namespace Piece

def text : Piece → List Char
  | .word text => text.toList
  | .sign p => p.text.toList
  | .compound op => op.text.toList ++ ['=']
  | .number value => value.literal.toList
  | .string threshold text => (quote threshold text).toList
  | .comma spaced => if spaced then [',', ' '] else [',']

def atom : Piece → Atom
  | .word text => ⟨wordKind text, none⟩
  | .sign p => ⟨.punctuator p, none⟩
  | .compound op => ⟨.punctuator .assign, some op⟩
  | .number value => ⟨.number value, none⟩
  | .string _ text => ⟨.string text, none⟩
  | .comma _ => ⟨.punctuator .comma, none⟩

/-- A piece whose text stands for its token. -/
def Valid : Piece → Prop
  | .word text => isName text
  | .sign _ => True
  | .compound op => op ∈ Punctuator.compounds
  | .number value => value.isFinite ∧ value.negative = false ∧ value.ReadsBack
  | .string threshold text => ∀ c ∈ text.toList, c.toNat ≤ 0xffff ∨ c.toNat < threshold
  | .comma _ => True

/-- Whether a piece is still read as its token if a character follows it. -/
def keeps : Piece → Char → Bool
  | .word _, c => !isNamePart c
  | .sign p, c => Punctuator.keeps p.text.toList c
  | .compound op, c => Punctuator.keeps (op.text.toList ++ ['=']) c
  | .number value, c => !isNamePart c && !(value.isBareLiteral && c == '.')
  | .string _ _, _ => true
  | .comma _, c => Punctuator.keeps [','] c

def joins (p q : Piece) : Bool :=
  q.text.head?.all fun c => p.text.getLast?.any (runsTogether · c) || p.keeps c

theorem readable {p : Piece} (hp : p.Valid) {rest : List Char} {atoms : List Atom}
    (hrest : ∀ c ∈ rest.head?, p.keeps c) (h : Readable rest atoms) :
    Readable (p.text ++ rest) (p.atom :: atoms) := by
  cases p with
  | word text => exact readable_word hp (by simpa [keeps] using hrest) h
  | sign p => exact readable_spelling (Punctuator.plain_mem_spellings p) hrest h
  | compound op => exact readable_spelling (Punctuator.compound_mem_spellings op hp) hrest h
  | number value =>
      simp only [keeps, Bool.and_eq_true, Bool.not_eq_true', Bool.and_eq_false_imp,
        beq_eq_false_iff_ne] at hrest
      obtain ⟨hfinite, hsign, hback⟩ := hp
      refine readable_literal hfinite hsign hback (fun c hc => (hrest c hc).1) ?_ h
      exact fun hbare hpoint => (hrest '.' hpoint).2 hbare rfl
  | string threshold text => exact readable_quote hp h
  | comma spaced =>
      have hcomma := Punctuator.plain_mem_spellings .comma
      cases spaced with
      | false => exact readable_spelling hcomma hrest h
      | true =>
          have hblank : Readable (' ' :: rest) atoms := h.blank rfl
          refine readable_spelling hcomma ?_ hblank
          rintro c hc
          cases hc
          decide

theorem keeps_space {p : Piece} : p.keeps ' ' := by
  have hsign : ∀ text, text ≠ [] → Punctuator.keeps text ' ' := by
    intro text htext
    have hclosed := Punctuator.closedTo_of_not_mem htext (c := ' ') (by decide)
    simp [Punctuator.keeps, hclosed]
  have hpart : isNamePart ' ' = false := by decide
  cases p with
  | word text => simp [keeps, hpart]
  | sign p => exact hsign _ (by cases p <;> decide)
  | compound op => exact hsign _ (by simp)
  | number value => simp [keeps, hpart]
  | string threshold text => rfl
  | comma spaced => exact hsign _ (by simp)

theorem text_ne_nil {p : Piece} (hp : p.Valid) : p.text ≠ [] := by
  cases p with
  | word text =>
      obtain ⟨c, rest, heq, -⟩ := exists_cons_of_isName hp
      simp [Piece.text, heq]
  | sign p => cases p <;> decide
  | compound op => simp [Piece.text]
  | number value =>
      obtain ⟨c, rest, heq, -⟩ := Number.literal_starts hp.1 hp.2.1
      simp [Piece.text, heq]
  | string threshold text => simp [Piece.text, quote]
  | comma spaced => cases spaced <;> decide

theorem no_break_of_mem_text {p : Piece} (hp : p.Valid) {c : Char} (hc : c ∈ p.text) :
    isLineBreak c = false := by
  cases p with
  | word text => exact isLineBreak_eq_false_of_isNamePart (isNamePart_of_mem_isName hp hc)
  | sign p =>
      have signs : ∀ p ∈ Punctuator.all, p.text.toList.all (!isLineBreak ·) := by
        decide
      simpa using List.all_eq_true.mp (signs p (Punctuator.mem_all p)) c hc
  | compound op =>
      have signs : ∀ p ∈ Punctuator.all, (p.text.toList ++ ['=']).all (!isLineBreak ·) := by
        decide
      simpa using List.all_eq_true.mp (signs op (Punctuator.mem_all op)) c hc
  | number value => exact Number.no_break_of_mem_literal hp.1 hp.2.1 hc
  | string threshold text => exact no_break_of_mem_quote hc
  | comma spaced =>
      have hmem : c ∈ [',', ' '] := by
        cases spaced with
        | false => exact List.mem_of_mem_take (i := 1) hc
        | true => exact hc
      have signs : ∀ c ∈ [',', ' '], !isLineBreak c := List.all_eq_true.mp (by decide)
      simpa using signs c hmem

end Piece

/-! ### Writing pieces -/

/-- The text of pieces behind a character, with a space where two characters would run
together. -/
def spell : Option Char → List Piece → List Char
  | _, [] => []
  | last, p :: ps =>
    let space := p.text.head?.any fun c => last.any (runsTogether · c)
    (if space then [' '] else []) ++ (p.text ++ spell p.text.getLast? ps)

theorem no_break_of_mem_spell {ps : List Piece} (hvalid : ∀ p ∈ ps, p.Valid)
    {last : Option Char} {c : Char} (hc : c ∈ spell last ps) : isLineBreak c = false := by
  induction ps generalizing last with
  | nil => cases hc
  | cons p ps ih =>
      rw [spell, List.mem_append, List.mem_append] at hc
      rcases hc with hc | hc | hc
      · split at hc
        · rw [List.mem_singleton.mp hc]
          rfl
        · cases hc
      · exact Piece.no_break_of_mem_text (hvalid p List.mem_cons_self) hc
      · exact ih (fun q hq => hvalid q (List.mem_cons_of_mem p hq)) hc

/-- A text of pieces that can stand behind each other is read as their tokens. -/
theorem readable_spell {ps : List Piece} (hvalid : ∀ p ∈ ps, p.Valid)
    (hchain : ps.IsChain fun p q => p.joins q) (last : Option Char) :
    Readable (spell last ps) (ps.map Piece.atom) := by
  induction ps generalizing last with
  | nil => exact .nil rfl
  | cons p ps ih =>
      have hrest := ih (fun q hq => hvalid q (List.mem_cons_of_mem p hq)) hchain.tail
        p.text.getLast?
      have hp : p.Valid := hvalid p List.mem_cons_self
      have hkeeps : ∀ c ∈ (spell p.text.getLast? ps).head?, p.keeps c := by
        cases ps with
        | nil => nofun
        | cons q ps =>
            have hjoins := (List.isChain_cons_cons.mp hchain).1
            obtain ⟨first, tail, htext⟩ := List.exists_cons_of_ne_nil
              (Piece.text_ne_nil (hvalid q (List.mem_cons_of_mem p List.mem_cons_self)))
            simp only [Piece.joins, htext, List.head?_cons, Option.all_some, Bool.or_eq_true] at hjoins
            intro c hc
            simp only [spell, htext, List.head?_cons, Option.any_some] at hc
            split at hc
            case isTrue =>
                cases hc
                exact Piece.keeps_space
            case isFalse hapart =>
                cases hc
                exact hjoins.resolve_left hapart
      have hread := Piece.readable hp hkeeps hrest
      rw [spell, List.map_cons]
      split
      · exact hread.blank rfl
      · exact hread

end Printer

end ScriptMin
