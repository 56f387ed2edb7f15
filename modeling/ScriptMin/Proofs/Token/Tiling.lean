import Mathlib.Logic.Function.Iterate
import ScriptMin.Proofs.Token.Refinement

/-!
Where tokens and comments stand in the source text. The tokens of a text and the blanks, line
breaks and comments between them cover it without a gap and without an overlap, and each token and
comment has the line that counting the line breaks before it gives.

A line break of two characters is never cut in two: no token and no comment starts with a line
feed or ends with a carriage return. So the breaks before a place and those behind it add up, and
the line of a cursor, which counts what it passes over, is the line of its offset.
-/

namespace ScriptMin

open Text

/-! ### Counting lines -/

namespace Text

/-- The line of an offset in a text whose first line has the given number: as many lines further on
as line breaks stand before the offset. -/
def lineAt (line : Nat) (text : List Char) (offset : Nat) : Nat :=
  nextLine^[lineBreaks (text.take offset)] line

/-- As long as line numbers do not overflow, they add up. -/
theorem iterate_nextLine {line n : Nat} (h : line + n < 2 ^ 32) : nextLine^[n] line = line + n := by
  induction n with
  | zero => rfl
  | succ n ih =>
      rw [Function.iterate_succ_apply', ih (by omega), nextLine]
      omega

/-- No line break stands half in one text and half in the text behind it. -/
def Apart (before after : List Char) : Prop :=
  before.getLast? = some '\r' → after.head? ≠ some '\n'

theorem apart_of_head {before after : List Char} (h : ∀ c ∈ after.head?, isLineBreak c = false) :
    Apart before after := by
  intro _ hhead
  exact absurd (h '\n' hhead) (by decide)

theorem apart_of_getLast {before after : List Char}
    (h : ∀ c ∈ before.getLast?, isLineBreak c = false) : Apart before after := by
  intro hlast _
  exact absurd (h '\r' hlast) (by decide)

theorem lineBreaks_append {before after : List Char} (h : Apart before after) :
    lineBreaks (before ++ after) = lineBreaks before + lineBreaks after := by
  induction before with
  | nil => simp [lineBreaks]
  | cons c before ih =>
      cases before with
      | nil =>
          -- The last character before the cut completes a line whether or not it is cut off.
          have hcut : completesLine c after = completesLine c [] := by
            by_cases hc : c = '\r'
            · have := h (by rw [hc]; rfl)
              simp [completesLine, hc, this]
            · simp [completesLine, hc]
          simp only [List.cons_append, List.nil_append, lineBreaks, hcut]
          omega
      | cons d before =>
          have hrest : Apart (d :: before) after := by
            intro hlast
            exact h (by rwa [List.getLast?_cons_cons])
          have hsame : completesLine c (d :: before ++ after) = completesLine c (d :: before) := rfl
          rw [List.cons_append, lineBreaks, ih hrest, lineBreaks.eq_2 c, hsame]
          omega

end Text

namespace Cursor

variable {line : Nat} {text : List Char} {c : Cursor}

/-- A cursor is a place of a text whose first line has the given number. -/
structure Within (line : Nat) (text : List Char) (c : Cursor) : Prop where
  le : c.offset ≤ text.length
  rest : c.rest = text.drop c.offset
  line : ∃ passed, passed + lineBreaks c.rest = lineBreaks text ∧ c.line = nextLine^[passed] line

theorem within_start (line : Nat) (text : List Char) : Within line text (start line text) :=
  ⟨Nat.zero_le _, rfl, 0, Nat.zero_add _, rfl⟩

theorem Within.step (h : c.Within line text) : c.step.Within line text := by
  unfold Cursor.step
  split
  case h_1 => exact h
  case h_2 x rest hrest =>
      have hdrop : text.drop c.offset = x :: rest := h.rest ▸ hrest
      have hlt : c.offset < text.length := by
        have := congrArg List.length hdrop
        rw [List.length_drop, List.length_cons] at this
        omega
      refine ⟨hlt, ?_, ?_⟩
      · rw [← List.tail_drop, hdrop, List.tail_cons]
      · obtain ⟨passed, hpassed, hline⟩ := h.line
        rw [hrest, lineBreaks] at hpassed
        show ∃ passed, passed + lineBreaks rest = _ ∧
          (if completesLine x rest then nextLine c.line else c.line) = _
        split at hpassed
        case isTrue hbreak =>
            refine ⟨passed + 1, by omega, ?_⟩
            rw [if_pos hbreak, hline, Function.iterate_succ_apply']
        case isFalse hbreak => exact ⟨passed, by omega, by rw [if_neg hbreak, hline]⟩

theorem Within.advance (h : c.Within line text) (n : Nat) : (c.advance n).Within line text := by
  induction n generalizing c with
  | zero => exact h
  | succ n ih => exact ih h.step

theorem advance_offset {n : Nat} (h : n ≤ c.rest.length) :
    (c.advance n).offset = c.offset + n := by
  induction n generalizing c with
  | zero => rfl
  | succ n ih =>
      cases hrest : c.rest with
      | nil => rw [hrest] at h; cases h
      | cons x rest =>
          rw [hrest, List.length_cons] at h
          have hoffset : c.step.offset = c.offset + 1 := by rw [Cursor.step, hrest]
          have hstep : c.step.rest = rest := by rw [Cursor.step, hrest]
          rw [Cursor.advance, ih (by rw [hstep]; omega), hoffset]
          omega

theorem Within.line_eq (h : c.Within line text) (hapart : Apart (text.take c.offset) c.rest) :
    c.line = lineAt line text c.offset := by
  have hcut := lineBreaks_append hapart
  rw [h.rest, List.take_append_drop, ← h.rest] at hcut
  obtain ⟨passed, hpassed, hline⟩ := h.line
  rw [hline, lineAt]
  congr 1
  omega

end Cursor

/-! ### How tokens end -/

namespace Lexeme

variable {text : List Char} {n m : Nat}

/-- The first characters of a text, some of them, end with one that is no line break. -/
def Ends (n : Nat) (text : List Char) : Prop :=
  ∃ c, 0 < n ∧ text[n - 1]? = some c ∧ isLineBreak c = false

theorem Ends.pos (h : Ends n text) : 0 < n := h.elim fun _ hc => hc.1

theorem Ends.le (h : Ends n text) : n ≤ text.length := by
  obtain ⟨c, hpos, hc, -⟩ := h
  have := (List.getElem?_eq_some_iff.mp hc).1
  omega

/-- A text starts with characters none of which is a line break. -/
structure Plain (n : Nat) (text : List Char) : Prop where
  le : n ≤ text.length
  no_break : ∀ c ∈ text.take n, isLineBreak c = false

theorem plain_zero (text : List Char) : Plain 0 text := ⟨Nat.zero_le _, by simp⟩

theorem plain_one {c : Char} (hc : isLineBreak c = false) (rest : List Char) :
    Plain 1 (c :: rest) :=
  ⟨by simp, by simpa using hc⟩

theorem Plain.add (h : Plain n text) (h' : Plain m (text.drop n)) : Plain (n + m) text := by
  have hle := h'.le
  rw [List.length_drop] at hle
  refine ⟨?_, ?_⟩
  · have := h.le
    omega
  · rw [List.take_add]
    intro c hc
    rcases List.mem_append.mp hc with hc | hc
    · exact h.no_break c hc
    · exact h'.no_break c hc

theorem plain_takeWhile {p : Char → Bool} (hp : ∀ c, p c → isLineBreak c = false)
    (text : List Char) : Plain (text.takeWhile p).length text := by
  refine ⟨(List.takeWhile_prefix p).length_le, fun c hc => hp c ?_⟩
  rw [← List.prefix_iff_eq_take.mp (List.takeWhile_prefix p)] at hc
  exact List.all_eq_true.mp List.all_takeWhile c hc

theorem Plain.ends (h : Plain n text) (hpos : 0 < n) : Ends n text := by
  have hlt : n - 1 < text.length := by
    have := h.le
    omega
  refine ⟨text[n - 1], hpos, List.getElem?_eq_getElem hlt, h.no_break _ ?_⟩
  exact List.mem_take_iff_getElem.mpr ⟨n - 1, by have := h.le; omega, rfl⟩

theorem isLineBreak_of_isDigit {c : Char} (h : c.isDigit) : isLineBreak c = false :=
  (ne_of_isDigit h).2.1

theorem isLineBreak_of_hexDigit {c : Char} (h : (hexDigit? c).isSome) : isLineBreak c = false := by
  rw [Bool.eq_false_iff]
  intro hbreak
  simp only [isLineBreak, Bool.or_eq_true, beq_iff_eq] at hbreak
  rcases hbreak with ((rfl | rfl) | rfl) | rfl <;> exact absurd h (by decide)

theorem plain_digitRun (text : List Char) : Plain (digitRun text).length text :=
  plain_takeWhile (fun _ => isLineBreak_of_isDigit) text

theorem plain_exponentPart (text : List Char) : Plain (exponentPart text).1 text := by
  cases text with
  | nil => exact plain_zero []
  | cons mark rest =>
      simp only [exponentPart]
      split
      case isFalse => exact plain_zero _
      case isTrue hmark =>
          have hbreak : isLineBreak mark = false := by rcases hmark with rfl | rfl <;> decide
          have hdigits : ∀ k, Plain k rest →
              Plain (1 + k + (digitRun (rest.drop k)).length) (mark :: rest) := by
            intro k hk
            rw [Nat.add_assoc]
            exact (plain_one hbreak rest).add (hk.add (plain_digitRun _))
          -- The sign takes one character, or there is none.
          split
          · split
            · exact plain_zero _
            · exact hdigits 1 (plain_one (by decide) _)
          · split
            · exact plain_zero _
            · exact hdigits 1 (plain_one (by decide) _)
          · split
            · exact plain_zero _
            · exact hdigits 0 (plain_zero _)

theorem plain_decimal (text : List Char) : Plain (decimal text).2 text := by
  simp only [decimal]
  have hpoint : Plain (if (text.drop (digitRun text).length).head? = some '.' then 1 else 0)
      (text.drop (digitRun text).length) := by
    split
    case isFalse => exact plain_zero _
    case isTrue h =>
        obtain ⟨tail, htail⟩ := List.head?_eq_some_iff.mp h
        rw [htail]
        exact plain_one (by decide) tail
  have hfraction := ((plain_digitRun text).add hpoint)
  rw [List.drop_drop]
  refine (hfraction.add ?_).add (plain_exponentPart _)
  exact plain_digitRun _

theorem decimal_pos {c : Char} (hc : c.isDigit ∨ c = '.') (rest : List Char) :
    0 < (decimal (c :: rest)).2 := by
  simp only [decimal]
  rcases hc with hc | rfl
  · have hrun : digitRun (c :: rest) = c :: digitRun rest := List.takeWhile_cons_of_pos hc
    rw [hrun, List.length_cons]
    omega
  · have hrun : digitRun ('.' :: rest) = [] := List.takeWhile_cons_of_neg (by decide)
    rw [hrun, List.length_nil, List.drop_zero, List.head?_cons, if_pos rfl]
    omega

theorem plain_number {c : Char} {rest : List Char} {value : Number} (hc : c.isDigit ∨ c = '.')
    (h : number (c :: rest) = .ok (value, n)) : 0 < n ∧ Plain n (c :: rest) := by
  have hdecimal : (if ((c :: rest).drop (decimal (c :: rest)).2).head?.any isNameStart then
        .error LexicalCause.nameAfterNumber else .ok (decimal (c :: rest))) = Except.ok (value, n) →
      0 < n ∧ Plain n (c :: rest) := by
    intro h
    split at h
    · cases h
    · have hpos := decimal_pos hc rest
      have hplain := plain_decimal (c :: rest)
      rw [Except.ok.inj h] at hpos hplain
      exact ⟨hpos, hplain⟩
  unfold number at h
  simp only at h
  split at h
  case h_2 => exact hdecimal h
  case h_1 rest heq =>
      cases heq
      split at h
      case isTrue hmark =>
          split at h
          · cases h
          · cases h
            obtain ⟨x, tail, rfl, hx⟩ : ∃ x tail, rest = x :: tail ∧ isLineBreak x = false := by
              rcases hmark with hmark | hmark
              all_goals
                obtain ⟨tail, rfl⟩ := List.head?_eq_some_iff.mp hmark
                exact ⟨_, tail, rfl, by decide⟩
            rw [show 2 = 1 + 1 from rfl]
            refine ⟨by omega, ((plain_one (by decide) _).add (plain_one hx tail)).add ?_⟩
            exact plain_takeWhile (fun _ => isLineBreak_of_hexDigit) tail
      case isFalse =>
          split at h
          · exact hdecimal h
          · cases h
            exact ⟨by omega, (plain_one (by decide) rest).add (plain_digitRun rest)⟩

/-- A string ends with its quote. -/
theorem stringBody_ends {quote : Char} {skip length : Nat} {acc chars : List Char}
    (h : stringBody quote skip acc length text = .ok (chars, n)) :
    ∃ k, n = length + k + 1 ∧ text[k]? = some quote := by
  fun_induction stringBody quote skip acc length text with
  | case1 => cases h
  | case2 _ _ _ _ _ ih =>
      obtain ⟨k, hn, hk⟩ := ih h
      exact ⟨k + 1, by omega, by rw [List.getElem?_cons_succ, hk]⟩
  | case3 =>
      cases h
      exact ⟨0, rfl, rfl⟩
  | case4 => cases h
  | case5 _ _ _ _ _ _ _ _ ih =>
      obtain ⟨k, hn, hk⟩ := ih h
      exact ⟨k + 1, by omega, by rw [List.getElem?_cons_succ, hk]⟩
  | case6 => cases h
  | case7 => cases h
  | case8 _ _ _ _ _ _ _ ih =>
      obtain ⟨k, hn, hk⟩ := ih h
      exact ⟨k + 1, by omega, by rw [List.getElem?_cons_succ, hk]⟩

/-- The body of a regular expression stays on its line. -/
theorem plain_regExpBody {inClass escaped : Bool} {length : Nat}
    (h : regExpBody inClass escaped length text = some n) :
    ∃ k, n = length + k + 1 ∧ Plain (k + 1) text := by
  induction text generalizing inClass escaped length with
  | nil => cases h
  | cons c rest ih =>
      rw [regExpBody] at h
      split at h
      case isTrue => cases h
      case isFalse hc =>
          have hplain := plain_one (Bool.eq_false_iff.mpr hc) rest
          have hnext : ∀ {inClass escaped : Bool},
              regExpBody inClass escaped (length + 1) rest = some n →
                ∃ k, n = length + k + 1 ∧ Plain (k + 1) (c :: rest) := by
            intro inClass escaped h
            obtain ⟨k, hn, hk⟩ := ih h
            refine ⟨k + 1, by omega, ?_⟩
            rw [Nat.add_comm]
            exact hplain.add hk
          split at h
          · exact hnext h
          split at h
          · exact hnext h
          split at h
          · exact hnext h
          split at h
          · exact hnext h
          split at h
          · exact ⟨0, (Option.some.inj h).symm, hplain⟩
          · exact hnext h

theorem plain_regExp {rest : List Char} {l : Lexeme} (h : regExp ('/' :: rest) = .ok l) :
    0 < l.length ∧ Plain l.length ('/' :: rest) := by
  unfold regExp at h
  split at h
  case h_1 => cases h
  case h_2 bodyLength hbody =>
      obtain ⟨k, rfl, hk⟩ := plain_regExpBody hbody
      cases h
      refine ⟨by simp only [plain]; omega, ?_⟩
      have hclosed : Plain (1 + k + 1) ('/' :: rest) := (plain_one (by decide) rest).add hk
      exact hclosed.add (plain_takeWhile (fun _ => isLineBreak_eq_false_of_isNamePart) _)

theorem length_word (text : List Char) :
    (word text).length = (text.takeWhile isNamePart).length := by
  simp only [word]
  split <;> rfl

theorem plain_word {c : Char} (hc : isNameStart c) (rest : List Char) :
    0 < (word (c :: rest)).length ∧ Plain (word (c :: rest)).length (c :: rest) := by
  rw [length_word]
  refine ⟨?_, plain_takeWhile (fun _ => isLineBreak_eq_false_of_isNamePart) _⟩
  rw [List.takeWhile_cons_of_pos (isNamePart_of_isNameStart hc)]
  exact Nat.succ_pos _

theorem plain_spelling {s : Punctuator.Spelling} (h : Punctuator.scan? text = some s) :
    0 < s.chars.length ∧ Plain s.chars.length text := by
  have signs : Punctuator.spellings.all fun s =>
      0 < s.chars.length && s.chars.all fun c => !isLineBreak c := by decide +kernel
  obtain ⟨hpos, hbreak⟩ := Bool.and_eq_true_iff.mp
    (List.all_eq_true.mp signs s (List.mem_of_find?_eq_some h))
  have hfound := List.find?_some h
  have hstart : s.chars <+: text := List.isPrefixOf_iff_prefix.mp hfound
  refine ⟨of_decide_eq_true hpos, hstart.length_le, fun c hc => ?_⟩
  rw [← List.prefix_iff_eq_take.mp hstart] at hc
  exact Bool.not_eq_true' _ ▸ List.all_eq_true.mp hbreak c hc

/-- A token that stands between line breaks ends with a character that is none. -/
theorem ends_of_scan {operand : Bool} {c : Char} {rest : List Char} {l : Lexeme}
    (h : scan operand (c :: rest) = .ok l) (hc : isLineBreak c = false) :
    l.kind ≠ .endOfInput ∧ Ends l.length (c :: rest) := by
  simp only [scan, hc, Bool.false_eq_true, if_false] at h
  split at h
  case isTrue hquote =>
      cases hbody : stringBody c 0 [] 1 rest with
      | error cause => rw [hbody] at h; cases h
      | ok result =>
          rw [hbody] at h
          cases h
          obtain ⟨chars, n⟩ := result
          obtain ⟨k, hn, hk⟩ := stringBody_ends hbody
          refine ⟨(by simp [plain]), c, ?_, ?_, hc⟩
          · show 0 < n
            omega
          · show (c :: rest)[n - 1]? = some c
            rw [hn, show 1 + k + 1 - 1 = k + 1 by omega, List.getElem?_cons_succ, hk]
  case isFalse hquote =>
  split at h
  case isTrue hdigit =>
      cases hnumber : number (c :: rest) with
      | error cause => rw [hnumber] at h; cases h
      | ok result =>
          rw [hnumber] at h
          cases h
          obtain ⟨value, n⟩ := result
          obtain ⟨hpos, hplain⟩ := plain_number (hdigit.imp_right And.left) hnumber
          exact ⟨(by simp [plain]), hplain.ends hpos⟩
  case isFalse =>
  split at h
  case isTrue hname =>
      cases h
      obtain ⟨hpos, hplain⟩ := plain_word hname rest
      refine ⟨?_, hplain.ends hpos⟩
      simp only [word]
      split <;> simp [plain]
  case isFalse =>
  split at h
  case isTrue hslash =>
      obtain ⟨rfl, -⟩ := hslash
      obtain ⟨hpos, hplain⟩ := plain_regExp h
      obtain ⟨source, hkind⟩ := kind_regExp h
      exact ⟨by simp [hkind], hplain.ends hpos⟩
  case isFalse =>
  split at h
  case h_1 s hs =>
      cases h
      obtain ⟨hpos, hplain⟩ := plain_spelling hs
      exact ⟨(by simp), hplain.ends hpos⟩
  case h_2 => cases h

/-! ### Comments -/

/-- A complete comment, with the text behind it. A comment that starts with two slashes ends at
a line break or with the text, one that starts with a slash and a star ends with the first star
and slash. -/
inductive IsComment : (comment behind : List Char) → Prop where
  | line {body behind : List Char} : (∀ c ∈ body, isLineBreak c = false) →
      (∀ c ∈ behind.head?, isLineBreak c) → IsComment ('/' :: '/' :: body) behind
  | block {body behind : List Char} : ¬ ['*', '/'] <:+: body ++ ['*'] →
      IsComment ('/' :: '*' :: (body ++ ['*', '/'])) behind

variable {comment behind : List Char}

theorem IsComment.ends (h : IsComment comment behind) :
    Ends comment.length (comment ++ behind) := by
  cases h with
  | @line body _ hbody _ =>
      have hplain : Plain ('/' :: '/' :: body).length ('/' :: '/' :: body ++ behind) := by
        refine ⟨by simp, ?_⟩
        rw [List.take_left]
        rw [List.forall_mem_cons, List.forall_mem_cons]
        exact ⟨by decide, by decide, hbody⟩
      exact hplain.ends (by simp)
  | @block body _ _ =>
      refine ⟨'/', by simp, ?_, by decide⟩
      simp

theorem isComment_blockCommentEnd {length : Nat} (h : blockCommentEnd length text = some n) :
    ∃ body behind, text = body ++ '*' :: '/' :: behind ∧ n = length + body.length + 2 ∧
      ¬ ['*', '/'] <:+: body ++ ['*'] := by
  fun_induction blockCommentEnd length text with
  | case1 length behind =>
      refine ⟨[], behind, rfl, (Option.some.inj h).symm, ?_⟩
      intro hinfix
      have := hinfix.length_le
      simp at this
  | case2 length c rest hopen ih =>
      obtain ⟨body, behind, rfl, hn, hfirst⟩ := ih h
      refine ⟨c :: body, behind, rfl, by simp only [List.length_cons]; omega, ?_⟩
      rw [List.cons_append, List.infix_cons_iff]
      rintro (hstart | hinfix)
      · obtain ⟨rfl, hslash⟩ := List.cons_prefix_cons.mp hstart
        cases body with
        | nil => simp at hslash
        | cons d body =>
            obtain ⟨rfl, -⟩ := List.cons_prefix_cons.mp hslash
            exact hopen _ rfl rfl
      · exact hfirst hinfix
  | case3 => cases h

theorem isComment_of_gap? (h : gap? text = some (.comment n)) :
    ∃ comment behind, text = comment ++ behind ∧ comment.length = n ∧ IsComment comment behind := by
  cases text with
  | nil => cases h
  | cons c rest =>
      simp only [gap?] at h
      split at h
      · cases h
      split at h
      · cases h
      split at h
      case isTrue hslash =>
          obtain ⟨rfl, hrest⟩ := hslash
          obtain ⟨tail, rfl⟩ := List.head?_eq_some_iff.mp hrest
          rw [Option.some.injEq, Gap.comment.injEq] at h
          refine ⟨_, _, List.takeWhile_append_dropWhile.symm, h, ?_⟩
          rw [List.takeWhile_cons_of_pos (by decide), List.takeWhile_cons_of_pos (by decide)]
          refine .line ?_ ?_
          · intro c hc
            simpa using List.all_eq_true.mp List.all_takeWhile c hc
          · intro c hc
            have := List.head?_dropWhile_not (fun c => !isLineBreak c) ('/' :: '/' :: tail)
            rw [hc] at this
            simpa using this
      case isFalse =>
      split at h
      case isTrue hslash =>
          obtain ⟨rfl, hrest⟩ := hslash
          obtain ⟨tail, rfl⟩ := List.head?_eq_some_iff.mp hrest
          split at h
          case h_2 => cases h
          case h_1 length hend =>
              rw [Option.some.injEq, Gap.comment.injEq] at h
              subst h
              obtain ⟨body, behind, hbody, hn, hfirst⟩ := isComment_blockCommentEnd hend
              refine ⟨'/' :: '*' :: (body ++ ['*', '/']), behind, ?_, ?_, .block hfirst⟩
              · rw [List.drop_one, List.tail_cons] at hbody
                simp [hbody]
              · simp only [List.length_cons, List.length_append, List.length_nil]
                omega
      case isFalse => cases h

theorem isBlank_of_gap? (h : gap? text = some .blank) : ∃ c rest, text = c :: rest ∧ isBlank c := by
  cases text with
  | nil => cases h
  | cons c rest =>
      simp only [gap?] at h
      split at h
      case isTrue hc => exact ⟨c, rest, rfl, hc⟩
      case isFalse =>
      split at h
      · cases h
      split at h
      · cases h
      split at h
      · split at h <;> cases h
      · cases h

theorem isLineBreak_of_gap? (h : gap? text = some (.lineBreak n)) :
    n ≤ text.length ∧ ∀ c ∈ text.take n, isLineBreak c := by
  cases text with
  | nil => cases h
  | cons c rest =>
      simp only [gap?] at h
      split at h
      · cases h
      split at h
      case isTrue hc =>
          rw [Option.some.injEq, Gap.lineBreak.injEq] at h
          split at h
          case isTrue hpair =>
              obtain ⟨tail, rfl⟩ := List.head?_eq_some_iff.mp hpair.2
              subst h
              rw [hpair.1]
              refine ⟨by simp, fun d hd => ?_⟩
              rcases List.mem_pair.mp hd with rfl | rfl <;> rfl
          case isFalse =>
              subst h
              exact ⟨by simp, by simpa using hc⟩
      case isFalse =>
      split at h
      · cases h
      split at h
      · split at h <;> cases h
      · cases h

/-- A place with no gap is the end or has a character of a token. -/
theorem head_of_gap?_eq_none (h : gap? text = none) : ∀ c ∈ text.head?, isLineBreak c = false := by
  intro c hc
  obtain ⟨rest, rfl⟩ := List.head?_eq_some_iff.mp hc
  simp only [gap?] at h
  split at h
  · cases h
  split at h
  · cases h
  · rename_i hbreak
    exact Bool.eq_false_iff.mpr hbreak

end Lexeme

/-! ### Texts between tokens -/

/-- What is asked of a comment: its text and the lines it starts and ends on. -/
structure Comment.Extent where
  text : String
  line : Nat
  endLine : Nat

def Comment.extent (c : Comment) : Comment.Extent := ⟨c.text, c.line, c.endLine⟩

theorem Comment.extent_settle (line : Nat) (c : Comment) : (c.settle line).extent = c.extent := by
  unfold Comment.settle
  split <;> rfl

/-- From one offset of a text up to another one there are blanks, line breaks and complete
comments only. The comments are the given ones, on the lines that the line breaks before them
make. -/
inductive Gaps (line : Nat) (text : List Char) : Nat → List Comment.Extent → Nat → Prop where
  | nil (n : Nat) : Gaps line text n [] n
  | space {n m : Nat} {c : Char} {comments : List Comment.Extent} :
      text[n]? = some c → isBlank c ∨ isLineBreak c → Gaps line text (n + 1) comments m →
      Gaps line text n comments m
  | comment {n m : Nat} {comment behind : List Char} {comments : List Comment.Extent} :
      text.drop n = comment ++ behind → Lexeme.IsComment comment behind →
      Gaps line text (n + comment.length) comments m →
      Gaps line text n (⟨String.ofList comment, lineAt line text n,
        lineAt line text (n + comment.length)⟩ :: comments) m

/-- A token covers some characters of a text, and its lines are those of its ends. -/
structure Token.Placed (line : Nat) (text : List Char) (t : Token) : Prop where
  nonempty : t.span.start < t.span.stop
  within : t.span.stop ≤ text.length
  startLine : t.span.line = lineAt line text t.span.start
  endLine : t.endLine = lineAt line text t.span.stop

/-- From an offset of a text up to its end there are the given tokens in their places, one after
the other, and between them the given comments, blanks and line breaks only. -/
inductive Tiles (line : Nat) (text : List Char) :
    Nat → List Token → List Comment.Extent → Prop where
  | nil {n : Nat} {comments : List Comment.Extent} :
      Gaps line text n comments text.length → Tiles line text n [] comments
  | cons {n : Nat} {t : Token} {tokens : List Token} {before comments : List Comment.Extent} :
      Gaps line text n before t.span.start → t.Placed line text →
      Tiles line text t.span.stop tokens comments →
      Tiles line text n (t :: tokens) (before ++ comments)

namespace Gaps

variable {line n k m : Nat} {text : List Char} {comments : List Comment.Extent}

theorem le (h : Gaps line text n comments m) : n ≤ m := by
  induction h with
  | nil => exact Nat.le_refl _
  | space _ _ _ ih => omega
  | comment _ _ _ ih => omega

theorem spaces (hle : n + k ≤ text.length)
    (hspace : ∀ c ∈ (text.drop n).take k, isBlank c ∨ isLineBreak c)
    (h : Gaps line text (n + k) comments m) : Gaps line text n comments m := by
  induction k generalizing n with
  | zero => exact h
  | succ k ih =>
      have hlt : n < text.length := by omega
      have hdrop : text.drop n = text[n] :: text.drop (n + 1) := List.drop_eq_getElem_cons hlt
      rw [hdrop, List.take_succ_cons, List.forall_mem_cons] at hspace
      refine .space (List.getElem?_eq_getElem hlt) hspace.1 ?_
      have hrest : Gaps line text (n + 1 + k) comments m := by
        rwa [Nat.add_assoc, Nat.add_comm 1 k]
      exact ih (by omega) hspace.2 hrest

end Gaps

/-! ### Scanning -/

namespace Cursor.Within

variable {line n : Nat} {text : List Char} {c : Cursor}

/-- A cursor at a token or at the end has the line of its offset. -/
theorem line_of_head (h : c.Within line text) (hhead : ∀ x ∈ c.rest.head?, isLineBreak x = false) :
    c.line = lineAt line text c.offset :=
  h.line_eq (apart_of_head hhead)

/-- A cursor behind a token or a comment has the line of its offset. -/
theorem line_of_ends (h : c.Within line text) (hends : Lexeme.Ends n c.rest) :
    (c.advance n).line = lineAt line text (c.offset + n) := by
  have hoffset : (c.advance n).offset = c.offset + n := advance_offset hends.le
  rw [← hoffset]
  refine (h.advance n).line_eq (apart_of_getLast ?_)
  obtain ⟨x, hpos, hx, hbreak⟩ := hends
  have hlast : text[c.offset + n - 1]? = some x := by
    rw [h.rest, List.getElem?_drop] at hx
    rw [← hx]
    congr 1
    omega
  intro y hy
  rw [hoffset, List.getLast?_take, if_neg (by omega), hlast, Option.some_or] at hy
  rwa [← Option.some.inj hy]

/-- A cursor passes over blanks and line breaks. -/
theorem gaps_of_spaces (h : c.Within line text) {m : Nat} {comments : List Comment.Extent}
    (hle : n ≤ c.rest.length) (hspace : ∀ x ∈ c.rest.take n, isBlank x ∨ isLineBreak x)
    (hgaps : Gaps line text (c.advance n).offset comments m) :
    Gaps line text c.offset comments m := by
  rw [advance_offset hle] at hgaps
  rw [h.rest] at hle hspace
  rw [List.length_drop] at hle
  have := h.le
  exact .spaces (by omega) hspace hgaps

end Cursor.Within

namespace Stream

variable {s s' : Stream} {line : Nat} {text : List Char}

def extents (s : Stream) : List Comment.Extent := s.comments.toList.map Comment.extent

theorem extents_collect {comment behind : List Char} (h : s.cursor.Within line text)
    (hrest : s.cursor.rest = comment ++ behind) (hcomment : Lexeme.IsComment comment behind) :
    (s.collect comment.length).extents = s.extents ++
      [⟨String.ofList comment, lineAt line text s.cursor.offset,
        lineAt line text (s.cursor.offset + comment.length)⟩] := by
  have hends : Lexeme.Ends comment.length s.cursor.rest := hrest ▸ hcomment.ends
  have hhead : ∀ x ∈ s.cursor.rest.head?, isLineBreak x = false := by
    rw [hrest]
    cases hcomment <;> simp +decide
  simp only [extents, collect, Array.toList_push, List.map_append, List.map_cons, List.map_nil,
    Comment.extent, h.line_of_head hhead, h.line_of_ends hends, hrest, List.take_left]

/-- Passing over gaps collects the comments in them. -/
theorem gaps_of_skipGaps {fuel : Nat} (h : skipGaps fuel s = .ok s')
    (hs : s.cursor.Within line text) :
    s'.cursor.Within line text ∧ ∃ comments, s'.extents = s.extents ++ comments ∧
      Gaps line text s.cursor.offset comments s'.cursor.offset := by
  induction fuel generalizing s with
  | zero =>
      obtain rfl : s = s' := Except.ok.inj h
      exact ⟨hs, [], (List.append_nil _).symm, .nil _⟩
  | succ fuel ih =>
      unfold skipGaps at h
      split at h
      case h_1 =>
          obtain rfl : s = s' := Except.ok.inj h
          exact ⟨hs, [], (List.append_nil _).symm, .nil _⟩
      case h_2 hgap =>
          obtain ⟨c, rest, hrest, hc⟩ := Lexeme.isBlank_of_gap? hgap
          obtain ⟨hs', comments, hcomments, hgaps⟩ := ih h hs.step
          refine ⟨hs', comments, hcomments, hs.gaps_of_spaces (n := 1) ?_ ?_ hgaps⟩
          · simp [hrest]
          · simp [hrest, hc]
      case h_3 length hgap =>
          split at h
          · obtain rfl : s = s' := Except.ok.inj h
            exact ⟨hs, [], (List.append_nil _).symm, .nil _⟩
          · obtain ⟨hle, hbreaks⟩ := Lexeme.isLineBreak_of_gap? hgap
            obtain ⟨hs', comments, hcomments, hgaps⟩ := ih h (hs.advance length)
            exact ⟨hs', comments, hcomments,
              hs.gaps_of_spaces hle (fun c hc => .inr (hbreaks c hc)) hgaps⟩
      case h_4 length hgap =>
          obtain ⟨comment, behind, hrest, rfl, hcomment⟩ := Lexeme.isComment_of_gap? hgap
          obtain ⟨hs', comments, hcomments, hgaps⟩ := ih h (hs.advance comment.length)
          rw [extents_collect hs hrest hcomment, List.append_assoc] at hcomments
          refine ⟨hs', _, hcomments, .comment (hs.rest ▸ hrest) hcomment ?_⟩
          rwa [← Cursor.advance_offset (by simp [hrest])]
      case h_5 => cases h

theorem extents_settle (s : Stream) (line : Nat) : (s.settle line).extents = s.extents := by
  unfold settle
  split
  case isFalse => rfl
  case isTrue =>
      simp only [extents, Array.toList_mapIdx]
      apply List.ext_getElem?
      intro i
      rw [List.getElem?_map, List.getElem?_mapIdx, List.getElem?_map]
      cases s.comments.toList[i]? with
      | none => rfl
      | some c =>
          simp only [Option.map_some]
          split
          · rw [Comment.extent_settle]
          · rfl

theorem extents_scanned (s : Stream) (l : Lexeme) : (s.scanned l).extents = s.extents := by
  show (s.pass l).extents = s.extents
  simp only [pass]
  split
  · exact extents_settle _ _
  · rfl

/-- A token at the place of a stream, if there is one, covers a part of the text. -/
theorem placed_tokenOf {operand : Bool} {l : Lexeme} (hs : s.cursor.Within line text)
    (hgap : Lexeme.gap? s.cursor.rest = none) (hscan : Lexeme.scan operand s.cursor.rest = .ok l) :
    if l.kind = .endOfInput then s.cursor.offset = text.length
    else (s.tokenOf l).Placed line text := by
  have hhead := Lexeme.head_of_gap?_eq_none hgap
  cases hrest : s.cursor.rest with
  | nil =>
      rw [hrest] at hscan
      cases hscan
      have hlength := congrArg List.length (hs.rest.symm.trans hrest)
      rw [List.length_drop, List.length_nil] at hlength
      have := hs.le
      exact Nat.le_antisymm hs.le (by omega)
  | cons c rest =>
      rw [hrest] at hscan
      obtain ⟨hkind, hends⟩ := Lexeme.ends_of_scan hscan (hhead c (by rw [hrest]; rfl))
      have hnewline := Lexeme.scan_kind_ne_newline hscan (hrest ▸ hhead)
      rw [← hrest] at hends
      have hoffset : (s.cursor.advance l.length).offset = s.cursor.offset + l.length :=
        Cursor.advance_offset hends.le
      have hcode : isCode l = true := by
        unfold isCode
        split <;> simp_all
      rw [if_neg hkind]
      refine ⟨?_, (hs.advance l.length).le, hs.line_of_head hhead, ?_⟩
      · have := hends.pos
        show s.cursor.offset < (s.cursor.advance l.length).offset
        omega
      · simp only [tokenOf, hcode, if_true, hoffset]
        exact hs.line_of_ends hends

/-- What reading one more token of a text does. -/
theorem next_places {operand : Bool} {t : Token} (h : next operand s = .ok (t, s'))
    (hlookahead : s.lookahead = 0) (hnewlines : s.newlines = false)
    (hs : s.cursor.Within line text) :
    s'.lookahead = 0 ∧ s'.newlines = false ∧ s'.cursor.Within line text ∧
    s'.cursor.offset = t.span.stop ∧
    ∃ comments, s'.extents = s.extents ++ comments ∧
      Gaps line text s.cursor.offset comments t.span.start ∧
      if t.kind = .endOfInput then t.span.start = text.length else t.Placed line text := by
  obtain ⟨s'', hread, rfl⟩ := next_eq_ok h
  rw [hlookahead, readFrom] at hread
  cases hskip : skipGaps (s.cursor.rest.length + 1) { s with lookahead := 0 } with
  | error fault => rw [hskip] at hread; cases hread
  | ok s₁ =>
      rw [hskip] at hread
      replace hread : scanHere operand { s₁ with current := s₁.current + 1 } = .ok (t, s'') := hread
      have hring := skipGaps_sameRing hskip
      have hgap := gap?_of_skipGaps hskip hnewlines (Nat.lt_succ_self _)
      obtain ⟨hs₁, comments, hcomments, hgaps⟩ := gaps_of_skipGaps hskip hs
      obtain ⟨fault, hstream, -⟩ | ⟨l, hscan, hstream, -⟩ :=
        scanHere_tokenHere operand { s₁ with current := s₁.current + 1 }
      · rw [hstream] at hread
        cases hread
      · rw [hstream] at hread
        cases hread
        have hcursor := scanned_cursor { s₁ with current := s₁.current + 1 } l
        refine ⟨?_, ?_, ?_, ?_, comments, ?_, hgaps, ?_⟩
        · exact (scanned_lookahead _ l).trans hring.lookahead
        · exact (pass_newlines _ l).trans (hring.newlines.trans hnewlines)
        · exact hcursor ▸ hs₁.advance l.length
        · exact congrArg Cursor.offset hcursor
        · exact (extents_scanned _ l).trans hcomments
        · exact placed_tokenOf hs₁ hgap hscan

/-- The tokens that are left of a text tile what is left of it. -/
theorem tiles_readAllFrom {fuel : Nat} {operand : Bool} {before tokens : Array Token}
    (h : readAllFrom fuel operand before s = .ok (tokens, s'))
    (hfuel : text.length < s.cursor.offset + fuel) (hlookahead : s.lookahead = 0)
    (hnewlines : s.newlines = false) (hs : s.cursor.Within line text) :
    ∃ rest comments, tokens.toList = before.toList ++ rest ∧ s'.extents = s.extents ++ comments ∧
      Tiles line text s.cursor.offset rest comments := by
  induction fuel generalizing s operand before with
  | zero =>
      have := hs.le
      omega
  | succ fuel ih =>
      rw [readAllFrom] at h
      cases hnext : next operand s with
      | error fault =>
          simp only [bind, StateT.bind, hnext, Except.bind] at h
          cases h
      | ok result =>
          obtain ⟨t, s₁⟩ := result
          simp only [bind, StateT.bind, hnext, Except.bind] at h
          obtain ⟨hlookahead₁, hnewlines₁, hs₁, hstop, comments, hcomments, hgaps, hplaced⟩ :=
            next_places hnext hlookahead hnewlines hs
          by_cases hkind : t.kind = .endOfInput
          · rw [if_pos hkind] at h hplaced
            cases h
            exact ⟨[], comments, (List.append_nil _).symm, hcomments, .nil (hplaced ▸ hgaps)⟩
          · rw [if_neg hkind] at h hplaced
            -- The token is not empty, so less of the text is left for less fuel.
            have hprogress : s.cursor.offset < s₁.cursor.offset := by
              rw [hstop]
              exact Nat.lt_of_le_of_lt hgaps.le hplaced.nonempty
            obtain ⟨rest, more, hrest, hmore, htiles⟩ :=
              ih h (by omega) hlookahead₁ hnewlines₁ hs₁
            refine ⟨t :: rest, comments ++ more, ?_, ?_, ?_⟩
            · rw [hrest, Array.toList_push, List.append_assoc, List.singleton_append]
            · rw [hmore, hcomments, List.append_assoc]
            · exact .cons hgaps hplaced (hstop ▸ htiles)

end Stream

namespace Tiles

variable {line n : Nat} {text : List Char} {tokens : List Token} {comments : List Comment.Extent}

theorem placed (h : Tiles line text n tokens comments) : ∀ t ∈ tokens, t.Placed line text := by
  induction h with
  | nil => simp
  | cons _ hplaced _ ih => exact List.forall_mem_cons.mpr ⟨hplaced, ih⟩

theorem le_start (h : Tiles line text n tokens comments) : ∀ t ∈ tokens, n ≤ t.span.start := by
  induction h with
  | nil => simp
  | cons hgaps hplaced _ ih =>
      have hlt := hplaced.nonempty
      have hle := hgaps.le
      refine List.forall_mem_cons.mpr ⟨hle, fun t ht => ?_⟩
      have := ih t ht
      omega

/-- Tokens stand one behind the other. -/
theorem pairwise (h : Tiles line text n tokens comments) :
    tokens.Pairwise fun t t' => t.span.stop ≤ t'.span.start := by
  induction h with
  | nil => exact .nil
  | cons _ _ htiles ih => exact .cons htiles.le_start ih

end Tiles

/-- If a whole text is read, its tokens are not empty, follow each other without an overlap and
lie inside the text, and what stands between them, before the first one and behind the last one is
blanks, line breaks and complete comments, which are the comments collected. Tokens and comments
start and end on the lines that the number of line breaks before them gives, which is added to the
first line unless the sum overflows. -/
theorem Stream.tiles_readAll {line : Nat} {text : List Char} {tokens : Array Token} {s : Stream}
    (h : readAll.run (ofChars line text) = .ok (tokens, s)) :
    (∀ t ∈ tokens.toList, t.Placed line text) ∧
      (tokens.toList.Pairwise fun t t' => t.span.stop ≤ t'.span.start) ∧
      Tiles line text 0 tokens.toList (s.comments.toList.map Comment.extent) ∧
      ∀ offset, line + lineBreaks (text.take offset) < 2 ^ 32 →
        lineAt line text offset = line + lineBreaks (text.take offset) := by
  have hfuel : text.length < 0 + (0 + text.length + 0 + 1) := by omega
  obtain ⟨rest, comments, hrest, hcomments, htiles⟩ :=
    tiles_readAllFrom h hfuel rfl rfl (Cursor.within_start line text)
  obtain rfl : tokens.toList = rest := hrest
  have hall : s.comments.toList.map Comment.extent = comments := hcomments
  rw [hall]
  exact ⟨htiles.placed, htiles.pairwise, htiles, fun _ => iterate_nextLine⟩

/-- A text with line breaks of two characters in a gap, a comment and a string. -/
def Stream.brokenLines : List Char := "a /* b\r\n*/ =\r\n'c\\\r\nd' // e\r/ f".toList

theorem Stream.tiles_readAll_brokenLines :
    ∃ tokens s, readAll.run (ofChars 1 brokenLines) = .ok (tokens, s) ∧
      Tiles 1 brokenLines 0 tokens.toList (s.comments.toList.map Comment.extent) ∧
      lineAt 1 brokenLines 18 = 1 + lineBreaks (brokenLines.take 18) := by
  have hok : (readAll.run (ofChars 1 brokenLines)).isOk := by decide +kernel
  cases hread : readAll.run (ofChars 1 brokenLines) with
  | error fault =>
      rw [hread] at hok
      cases hok
  | ok result =>
      obtain ⟨-, -, htiles, hlines⟩ := tiles_readAll hread
      exact ⟨result.1, result.2, rfl, htiles, hlines 18 (by decide)⟩

def Stream.twoLines : List Char := "a\nb".toList

/-- Behind the last line number the lines start again with zero. -/
theorem Stream.readAll_twoLines : ∃ tokens s t,
    readAll.run (ofChars (2 ^ 32 - 1) twoLines) = .ok (tokens, s) ∧ t ∈ tokens.toList ∧
      t.span.line ≠ 2 ^ 32 - 1 + lineBreaks (twoLines.take t.span.start) := by
  have hlines : (readAll.run (ofChars (2 ^ 32 - 1) twoLines)).toOption.any fun (tokens, _) =>
      tokens.toList.any fun t =>
        t.span.line != 2 ^ 32 - 1 + lineBreaks (twoLines.take t.span.start) := by
    decide +kernel
  cases hread : readAll.run (ofChars (2 ^ 32 - 1) twoLines) with
  | error fault =>
      rw [hread] at hlines
      cases hlines
  | ok result =>
      rw [hread] at hlines
      obtain ⟨t, ht, hline⟩ := List.any_eq_true.mp hlines
      exact ⟨result.1, result.2, t, rfl, ht, bne_iff_ne.mp hline⟩

end ScriptMin
