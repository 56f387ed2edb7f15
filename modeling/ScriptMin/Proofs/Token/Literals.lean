import ScriptMin.Proofs.Token.Tiling

/-!
A string literal at the start of a source text. Whatever follows it, the stream reads it as one
token, which ends at the closing quote, and goes on right behind it.
-/

namespace ScriptMin

open Text Lexeme

namespace Cursor

/-- Line breaks behind the characters that are passed over do not count. -/
theorem advance_line_of_take {n : Nat} {c : Cursor}
    (h : ∀ x ∈ c.rest.take n, isLineBreak x = false) : (c.advance n).line = c.line := by
  induction n generalizing c with
  | zero => rfl
  | succ n ih =>
      cases hrest : c.rest with
      | nil =>
          have hstep : c.step = c := by rw [step, hrest]
          rw [advance, hstep]
          exact ih (by simp [hrest])
      | cons x rest =>
          rw [hrest, List.take_succ_cons, List.forall_mem_cons] at h
          have hstep : c.step = ⟨c.offset + 1, c.line, rest⟩ := by
            simp [step, hrest, completesLine, h.1]
          rw [advance, hstep]
          exact ih h.2

/-- Passing over a text without line breaks. -/
theorem advance_start {line : Nat} {text : List Char} (h : ∀ c ∈ text, isLineBreak c = false)
    (rest : List Char) :
    (start line (text ++ rest)).advance text.length = ⟨text.length, line, rest⟩ := by
  have hoffset : ((start line (text ++ rest)).advance text.length).offset = 0 + text.length :=
    advance_offset (by simp [start])
  have hline : ((start line (text ++ rest)).advance text.length).line = line :=
    advance_line_of_take fun c hc => h c (by simpa [start] using hc)
  have hrest : ((start line (text ++ rest)).advance text.length).rest = rest := by
    rw [advance_rest]
    exact List.drop_left
  rw [Nat.zero_add] at hoffset
  calc (start line (text ++ rest)).advance text.length
      = ⟨_, _, _⟩ := rfl
    _ = ⟨text.length, line, rest⟩ := by rw [hoffset, hline, hrest]

end Cursor

namespace Stream

/-- The first token of a text that starts with a lexeme of code without line breaks. -/
theorem next_ofChars {operand : Bool} {line : Nat} {text rest : List Char} {kind : TokenKind}
    (hgap : gap? (text ++ rest) = none) (hbreaks : ∀ c ∈ text, isLineBreak c = false)
    (hscan : scan operand (text ++ rest) = .ok (plain kind text.length))
    (hcode : isCode (plain kind text.length) = true) :
    ∃ s, next operand (ofChars line (text ++ rest)) =
        .ok (⟨kind, ⟨line, 0, text.length⟩, line, none⟩, s) ∧
      s.cursor = ⟨text.length, line, rest⟩ := by
  let here : Stream := { ofChars line (text ++ rest) with current := 1 }
  have hread : readFrom operand 0 (ofChars line (text ++ rest)) = scanHere operand here := by
    simp only [readFrom, skipGaps, ofChars, Cursor.start, hgap, bind, Except.bind]
    rfl
  have hcursor : here.cursor.advance text.length = ⟨text.length, line, rest⟩ :=
    Cursor.advance_start hbreaks rest
  have htoken : (here.scanned (plain kind text.length)).token =
      ⟨kind, ⟨line, 0, text.length⟩, line, none⟩ := by
    rw [token, slot_scanned, slotOf, tokenOf, hcode, if_pos rfl]
    simp only [plain, hcursor]
    rfl
  rw [scanHere_eq hscan, htoken] at hread
  exact ⟨_, next_of_readFrom hread, (scanned_cursor here _).trans hcursor⟩

/-- A written string literal is read as one string token, whatever follows it. The token ends at
the closing quote, and the stream goes on there. Its text is the one that was written, with two
U+FFFD for every character beyond U+FFFF from the threshold on. So the text itself comes back
exactly if there is no such character. -/
theorem next_quote (operand : Bool) (line threshold : Nat) (text : String) (rest : List Char) :
    (∃ s, next operand (ofChars line ((quote threshold text).toList ++ rest)) =
        .ok (⟨.string (readBack threshold text),
          ⟨line, 0, (quote threshold text).toList.length⟩, line, none⟩, s) ∧
      s.cursor = ⟨(quote threshold text).toList.length, line, rest⟩) ∧
    (readBack threshold text = text ↔
      ¬ ∃ c ∈ text.toList, 0xffff < c.toNat ∧ threshold ≤ c.toNat) := by
  constructor
  · exact next_ofChars (gap?_quote threshold text rest) (fun _ => no_break_of_mem_quote)
      (scan_quote_readBack operand threshold text rest) rfl
  · rw [readBack_eq_self]
    simp only [not_exists, not_and, Nat.not_le]
    refine forall₂_congr fun c _ => ?_
    omega

end Stream

end ScriptMin
