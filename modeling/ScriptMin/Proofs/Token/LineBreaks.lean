import ScriptMin.Proofs.Token.Tiling

/-!
Line breaks between tokens. The grammar asks whether a line break stands before the next token:
behind some statements it takes the place of a semicolon. The stream answers from a line break it
meets while it scans on, from the lines of two tokens when the next one has been scanned already,
and from the line of an earlier line break that stands where the token read last should. All three
are one answer: whether the text between the token read last and the next one has a line break.
-/

namespace ScriptMin

open Text Lexeme

/-! ### Counting line breaks -/

namespace Text

theorem lineBreaks_eq_zero {text : List Char} :
    lineBreaks text = 0 ↔ ∀ c ∈ text, isLineBreak c = false := by
  induction text with
  | nil => simp [lineBreaks]
  | cons c rest ih =>
      simp only [lineBreaks, Nat.add_eq_zero_iff, ih, List.forall_mem_cons]
      constructor
      · rintro ⟨hrest, hc⟩
        refine ⟨?_, hrest⟩
        cases hbreak : isLineBreak c with
        | false => rfl
        | true =>
            -- Only a carriage return completes no line, and then a line feed follows.
            cases rest with
            | nil => simp [completesLine, hbreak] at hc
            | cons d rest =>
                have hd := hrest d List.mem_cons_self
                simp only [completesLine, hbreak, Bool.true_and, List.head?_cons] at hc
                by_cases hpair : d = '\n'
                · rw [hpair] at hd
                  exact absurd hd (by decide)
                · simp [hpair] at hc
      · rintro ⟨hc, hrest⟩
        exact ⟨hrest, by simp [completesLine, hc]⟩

theorem lineBreaks_pos {text : List Char} :
    0 < lineBreaks text ↔ ∃ c ∈ text, isLineBreak c := by
  rw [Nat.pos_iff_ne_zero, ne_eq, lineBreaks_eq_zero]
  simp

end Text

/-! ### What stands before the next token -/

theorem Cursor.advance_advance (n m : Nat) (c : Cursor) :
    (c.advance n).advance m = c.advance (n + m) := by
  induction n generalizing c with
  | zero => rw [advance, Nat.zero_add]
  | succ n ih => rw [advance, ih, Nat.add_right_comm, advance]

namespace Stream

variable {s s' : Stream} {fuel fuel' : Nat}

/-- Enough fuel to pass over the text passes over the gap at its start. -/
theorem map_cursor_skipGaps_of_lt (hnewlines : s.newlines = false)
    (hfuel : s.cursor.rest.length < fuel) (hfuel' : s.cursor.rest.length < fuel') :
    (skipGaps fuel s).map cursor = (skipGaps fuel' s).map cursor := by
  induction fuel generalizing s fuel' with
  | zero => omega
  | succ fuel ih =>
      obtain ⟨fuel', rfl⟩ := Nat.exists_eq_add_of_le' (Nat.one_le_of_lt hfuel')
      have hshorter : ∀ n, 0 < n → s.cursor.rest ≠ [] →
          (s.cursor.advance n).rest.length < fuel ∧ (s.cursor.advance n).rest.length < fuel' := by
        intro n hpos hne
        have := List.length_pos_iff.mpr hne
        rw [Cursor.advance_rest, List.length_drop]
        omega
      simp only [skipGaps]
      split
      case h_1 => rfl
      case h_2 hgap =>
          obtain ⟨h, h'⟩ := hshorter 1 Nat.one_pos (gap?_progress hgap).1
          exact ih hnewlines h h'
      case h_3 hgap =>
          obtain ⟨hne, hpos⟩ := gap?_progress hgap
          obtain ⟨h, h'⟩ := hshorter _ (hpos _ (.inl rfl)) hne
          rw [if_neg (by simp [hnewlines]), if_neg (by simp [hnewlines])]
          exact ih hnewlines h h'
      case h_4 hgap =>
          obtain ⟨hne, hpos⟩ := gap?_progress hgap
          obtain ⟨h, h'⟩ := hshorter _ (hpos _ (.inr rfl)) hne
          exact ih hnewlines h h'
      case h_5 => rfl

theorem map_cursor_skipGaps_pastGaps (hnewlines : s.newlines = false)
    (hfuel : s.cursor.rest.length < fuel) :
    (skipGaps fuel s).map cursor = s.cursor.pastGaps := by
  rw [map_cursor_skipGaps_of_lt hnewlines hfuel (Nat.lt_succ_self _)]
  exact map_cursor_skipGaps (s := startingAt s.cursor) _ rfl hnewlines

/-- The place behind the gaps is reached by passing over some characters. -/
theorem exists_advance_of_skipGaps (h : skipGaps fuel s = .ok s') :
    ∃ n, s'.cursor = s.cursor.advance n := by
  induction fuel generalizing s with
  | zero =>
      obtain rfl : s = s' := Except.ok.inj h
      exact ⟨0, rfl⟩
  | succ fuel ih =>
      have hstep : ∀ {s₁ : Stream} {k : Nat}, s₁.cursor = s.cursor.advance k →
          skipGaps fuel s₁ = .ok s' → ∃ n, s'.cursor = s.cursor.advance n := by
        intro s₁ k hk h₁
        obtain ⟨n, hn⟩ := ih h₁
        exact ⟨k + n, by rw [hn, hk, Cursor.advance_advance]⟩
      unfold skipGaps at h
      split at h
      · obtain rfl : s = s' := Except.ok.inj h
        exact ⟨0, rfl⟩
      · exact hstep (k := 1) rfl h
      · split at h
        · obtain rfl : s = s' := Except.ok.inj h
          exact ⟨0, rfl⟩
        · exact hstep rfl h
      · exact hstep rfl h
      · cases h

end Stream

namespace Cursor

variable {place place' : Cursor} {line n m : Nat} {text : List Char}

/-- A gap at a place is passed over, then the gaps behind it. -/
theorem pastGaps_of_gap? {gap : Gap} (hgap : gap? place.rest = some gap)
    (hn : gap = .blank ∧ n = 1 ∨ gap = .lineBreak n ∨ gap = .comment n) :
    place.pastGaps = (place.advance n).pastGaps := by
  obtain ⟨hne, hpos⟩ := gap?_progress hgap
  have hlength := List.length_pos_iff.mpr hne
  have hshorter : 0 < n → (place.advance n).rest.length < place.rest.length := by
    intro hpos
    rw [advance_rest, List.length_drop]
    omega
  rw [pastGaps, Stream.skipGaps]
  have hplace : (Stream.startingAt place).cursor.rest = place.rest := rfl
  rw [hplace, hgap]
  obtain ⟨rfl, rfl⟩ | rfl | rfl := hn
  · exact Stream.map_cursor_skipGaps_pastGaps (s := { Stream.startingAt place with
      cursor := place.advance 1 }) rfl (hshorter Nat.one_pos)
  · exact Stream.map_cursor_skipGaps_pastGaps (s := { Stream.startingAt place with
      cursor := place.advance n }) rfl (hshorter (hpos _ (.inl rfl)))
  · exact Stream.map_cursor_skipGaps_pastGaps (s := (Stream.startingAt place).collect n) rfl
      (hshorter (hpos _ (.inr rfl)))

theorem pastGaps_of_gap?_eq_none (hgap : gap? place.rest = none) :
    place.pastGaps = .ok place := by
  have hplace : (Stream.startingAt place).cursor.rest = place.rest := rfl
  rw [pastGaps, Stream.skipGaps, hplace, hgap]
  rfl

theorem exists_advance_of_pastGaps (h : place.pastGaps = .ok place') :
    ∃ n, place' = place.advance n := by
  unfold pastGaps at h
  cases hskip : Stream.skipGaps (place.rest.length + 1) (.startingAt place) with
  | error fault => rw [hskip] at h; cases h
  | ok s =>
      rw [hskip] at h
      obtain rfl : s.cursor = place' := Except.ok.inj h
      exact Stream.exists_advance_of_skipGaps hskip

/-- The text from the next token on. There is none behind a comment that does not end. -/
def restPastGaps (place : Cursor) : List Char :=
  match place.pastGaps with
  | .ok place' => place'.rest
  | .error _ => []

theorem restPastGaps_of_pastGaps (h : place.pastGaps = .ok place') :
    place.restPastGaps = place'.rest := by
  rw [restPastGaps, h]

/-- The blanks, line breaks and comments from a place up to the next token, or up to the end. -/
def gaps (place : Cursor) : List Char :=
  place.rest.take (place.rest.length - place.restPastGaps.length)

theorem gaps_append (place : Cursor) : place.gaps ++ place.restPastGaps = place.rest := by
  have hsuffix : place.restPastGaps <:+ place.rest := by
    unfold restPastGaps
    split
    case h_1 place' h =>
        obtain ⟨n, rfl⟩ := exists_advance_of_pastGaps h
        rw [advance_rest]
        exact List.drop_suffix n _
    case h_2 => exact List.nil_suffix
  obtain ⟨before, hbefore⟩ := hsuffix
  rw [gaps, ← hbefore]
  simp

/-- Whether a line break stands between a place and the next token. -/
def Broken (place : Cursor) : Prop := ∃ c ∈ place.gaps, isLineBreak c

/-- The gaps at a place have those at a later place that is before the same token. -/
theorem gaps_of_advance (h : (place.advance n).pastGaps = place.pastGaps) :
    place.gaps = place.rest.take n ++ (place.advance n).gaps := by
  have hrest : (place.advance n).restPastGaps = place.restPastGaps := by
    rw [restPastGaps, restPastGaps, h]
  have hbefore : place.gaps ++ place.restPastGaps =
      (place.rest.take n ++ (place.advance n).gaps) ++ place.restPastGaps := by
    rw [gaps_append, List.append_assoc, ← hrest, gaps_append, advance_rest, List.take_append_drop]
  exact List.append_cancel_right hbefore

theorem Broken.of_advance (h : (place.advance n).pastGaps = place.pastGaps)
    (hbroken : (place.advance n).Broken) : place.Broken := by
  obtain ⟨c, hc, hbreak⟩ := hbroken
  exact ⟨c, gaps_of_advance h ▸ List.mem_append_right _ hc, hbreak⟩

/-- A place where a line break starts. -/
theorem broken_of_lineBreak (hgap : gap? place.rest = some (.lineBreak n)) :
    place.Broken := by
  obtain ⟨hne, hpos⟩ := gap?_progress hgap
  obtain ⟨-, hbreaks⟩ := isLineBreak_of_gap? hgap
  have hgaps := gaps_of_advance (pastGaps_of_gap? hgap (.inr (.inl rfl))).symm
  obtain ⟨c, rest, hrest⟩ := List.exists_cons_of_ne_nil hne
  obtain ⟨k, hk⟩ := Nat.exists_eq_add_of_le' (hpos n (.inl rfl))
  have hmem : c ∈ place.rest.take n := by
    rw [hrest, hk, List.take_succ_cons]
    exact List.mem_cons_self
  exact ⟨c, hgaps ▸ List.mem_append_left _ hmem, hbreaks c hmem⟩

/-- The lines of a text have positive numbers that do not overflow. -/
structure Numbered (line : Nat) (text : List Char) : Prop where
  pos : 1 ≤ line
  lt : line + lineBreaks text < 2 ^ 32

theorem Within.line_add (h : place.Within line text) (hlines : Numbered line text) :
    place.line + lineBreaks place.rest = line + lineBreaks text := by
  obtain ⟨passed, hpassed, hline⟩ := h.line
  have hlt := hlines.lt
  rw [hline, iterate_nextLine (by omega)]
  omega

/-- The next token is on a later line if a line break stands before it. -/
theorem Within.line_lt_iff (h : place.Within line text) (hlines : Numbered line text)
    (hgaps : place.pastGaps = .ok place') : place.line < place'.line ↔ place.Broken := by
  obtain ⟨n, rfl⟩ := exists_advance_of_pastGaps hgaps
  have hcut : place.gaps ++ (place.advance n).rest = place.rest := by
    rw [← restPastGaps_of_pastGaps hgaps, gaps_append]
  have hhead := head_of_gap?_eq_none (gap?_of_pastGaps hgaps)
  have hbreaks : lineBreaks (place.gaps ++ (place.advance n).rest) =
      lineBreaks place.gaps + lineBreaks (place.advance n).rest :=
    lineBreaks_append (apart_of_head hhead)
  rw [hcut] at hbreaks
  have hline := h.line_add hlines
  have hline' := (h.advance n).line_add hlines
  rw [Broken, ← lineBreaks_pos]
  omega

theorem Within.line_le (h : place.Within line text) (hlines : Numbered line text) :
    line ≤ place.line := by
  have hle : ∀ n (text : List Char), lineBreaks (text.drop n) ≤ lineBreaks text := by
    intro n
    induction n with
    | zero => exact fun text => Nat.le_refl _
    | succ n ih =>
        rintro (- | ⟨c, rest⟩)
        · exact Nat.le_refl _
        · rw [List.drop_succ_cons, lineBreaks]
          exact Nat.le_add_right_of_le (ih rest)
  have := h.line_add hlines
  have := hle place.offset text
  rw [← h.rest] at this
  omega

/-- The gaps are what is between the place and the next token. -/
theorem Within.offset_pastGaps (h : place.Within line text)
    (hgaps : place.pastGaps = .ok place') : place'.offset = place.offset + place.gaps.length := by
  obtain ⟨n, rfl⟩ := exists_advance_of_pastGaps hgaps
  have hcut := congrArg List.length place.gaps_append
  rw [restPastGaps_of_pastGaps hgaps, List.length_append, (h.advance n).rest, h.rest,
    List.length_drop, List.length_drop] at hcut
  have := h.le
  have := (h.advance n).le
  omega

end Cursor

def Token.behind (text : List Char) (t : Token) : Cursor :=
  ⟨t.span.stop, t.endLine, text.drop t.span.stop⟩

namespace Slot.Leads

variable {slot : Slot} {place place' : Cursor} {line : Nat} {text : List Char}

theorem exists_tokenOf (h : slot.Leads place place') :
    ∃ operand l, Lexeme.scan operand slot.place.rest = .ok l ∧
      slot.token = (Stream.startingAt slot.place).tokenOf l ∧
      place' = slot.place.advance l.length := by
  obtain ⟨operand, htoken⟩ := h.scans
  obtain ⟨_, -, herror⟩ | ⟨l, hscan, -, hok⟩ :=
    Stream.scanHere_tokenHere operand (.startingAt slot.place)
  · exact absurd (htoken.symm.trans herror) (by simp)
  · obtain ⟨htoken', hplace⟩ := Prod.mk.inj (Except.ok.inj (htoken.symm.trans hok))
    exact ⟨operand, l, hscan, htoken', hplace⟩

/-- A token starts where the gaps before it end. -/
theorem start_eq (h : slot.Leads place place') : slot.token.span.start = slot.place.offset := by
  obtain ⟨_, l, -, htoken, -⟩ := h.exists_tokenOf
  rw [htoken]
  rfl

theorem line_eq (h : slot.Leads place place') : slot.token.span.line = slot.place.line := by
  obtain ⟨_, l, -, htoken, -⟩ := h.exists_tokenOf
  rw [htoken]
  rfl

/-- A token leads to the place behind it. -/
theorem behind_eq (h : slot.Leads place place') (hplace : place'.Within line text) :
    slot.token.behind text = place' := by
  obtain ⟨operand, l, hscan, htoken, rfl⟩ := h.exists_tokenOf
  have hstop : slot.token.span.stop = (slot.place.advance l.length).offset := by
    rw [htoken]
    rfl
  have hline : slot.token.endLine = (slot.place.advance l.length).line := by
    rw [htoken, Stream.tokenOf]
    dsimp only
    split
    case isTrue => rfl
    case isFalse hcode =>
        -- A lexeme that is no code is the end, which has no length.
        have hhead := head_of_gap?_eq_none (Cursor.gap?_of_pastGaps h.gaps)
        cases hrest : slot.place.rest with
        | nil =>
            rw [hrest] at hscan
            cases hscan
            rfl
        | cons c rest =>
            rw [hrest] at hscan
            have hend := (ends_of_scan hscan (hhead c (by rw [hrest]; rfl))).1
            have hnewline := scan_kind_ne_newline hscan (hrest ▸ hhead)
            refine absurd ?_ hcode
            unfold Stream.isCode
            split <;> simp_all
  rw [Token.behind, hstop, hline, ← hplace.rest]

end Slot.Leads

namespace Cursor

/-- A token that is read leads to the place behind it. -/
theorem leads_of_readToken {operand : Bool} {place place' : Cursor} {t : Token}
    (h : place.readToken operand = .ok (t, place')) :
    ∃ slot : Slot, slot.token = t ∧ slot.Leads place place' := by
  rw [readToken] at h
  cases hgaps : place.pastGaps with
  | error fault => rw [hgaps] at h; cases h
  | ok start =>
      rw [hgaps] at h
      exact ⟨⟨t, start, 0⟩, rfl, hgaps, operand, h⟩

end Cursor

/-! ### Reading on -/

namespace Stream

variable {s s' : Stream} {place place' : Cursor} {line : Nat} {text : List Char} {operand : Bool}

/-- A line number tells whether a line break stands before the next token: the token is on a later
line if and only if there is one. -/
structure Marks (place : Cursor) (endLine : Nat) : Prop where
  pos : 0 < endLine
  line_lt_iff : ∀ place', place.pastGaps = .ok place' → (endLine < place'.line ↔ place.Broken)

theorem marks_line (hplace : place.Within line text) (hlines : Cursor.Numbered line text) :
    Marks place place.line :=
  ⟨Nat.le_trans hlines.pos (hplace.line_le hlines), fun _ => hplace.line_lt_iff hlines⟩

/-- What a stream holds behind a place: nothing, the next token, or a line break before it. -/
inductive Awaits (s : Stream) (place : Cursor) : Prop
  | nothing (lookahead : s.lookahead = 0) (cursor : s.cursor = place)
  | token (lookahead : s.lookahead = 1)
      (leads : (s.slots.get (s.current + 1)).Leads place s.cursor)
  | newline (lookahead : s.lookahead = 1)
      (kind : (s.slots.get (s.current + 1)).token.kind = .newline)
      (marks : Marks place (s.slots.get (s.current + 1)).token.endLine) (broken : place.Broken)
      (gaps : s.cursor.pastGaps = place.pastGaps)

/-- The next token has been read: it leads from the place before to the cursor. What stands in the
slot before it tells line breaks if the token that was current did. -/
structure Took (s : Stream) (place : Cursor) (s' : Stream) (place' : Cursor) : Prop where
  newlines : s'.newlines = s.newlines
  lookahead : s'.lookahead = 0
  cursor : s'.cursor = place'
  leads : s'.slot.Leads place place'
  marks : Marks place s.token.endLine → Marks place s'.giveBack.token.endLine

theorem Took.consume (h : Took s place s' place') (t : Token) :
    Took s place (s'.consume t) place' :=
  ⟨h.newlines, h.lookahead, h.cursor, h.leads, h.marks⟩

/-- Scanning at the end of a gap takes the next token. -/
theorem agree_took_scanHere {before : Stream} (hgaps : place.pastGaps = .ok s.cursor)
    (hlookahead : s.lookahead = 0) (hnewlines : s.newlines = before.newlines)
    (hmarks : Marks place before.token.endLine →
      Marks place (s.slots.get (s.current - 1)).token.endLine) :
    Agree (Took before place) (scanHere operand s) (place.readToken operand) := by
  rw [Cursor.readToken, hgaps]
  obtain ⟨fault, hstream, hplain⟩ | ⟨l, hscan, hstream, hplain⟩ := scanHere_tokenHere operand s
  · rw [hstream]
    show Agree _ _ (s.cursor.tokenHere operand)
    rw [hplain]
    exact .error
  · rw [hstream]
    show Agree _ _ (s.cursor.tokenHere operand)
    rw [hplain]
    refine .ok ⟨(pass_newlines s l).trans hnewlines, (scanned_lookahead s l).trans hlookahead,
      scanned_cursor s l, ?_, fun h => ?_⟩
    · rw [slot_scanned]
      exact ⟨hgaps, operand, hplain⟩
    · have hbefore : (s.scanned l).giveBack.slot = s.slots.get (s.current - 1) := by
        have hne : ∀ i : Fin 4, i ≠ i - 1 := by decide
        show (s.scanned l).slots.get ((s.scanned l).current - 1) = _
        rw [scanned_slots, scanned_current, get_set_ne _ (hne _)]
      rw [token, hbefore]
      exact hmarks h

/-- Scanning on takes the next token. -/
theorem agree_took_readFrom {before : Stream} (hnewlines : s.newlines = false)
    (hgaps : s.cursor.pastGaps = place.pastGaps) (hbefore : before.newlines = false)
    (hmarks : Marks place before.token.endLine → Marks place s.token.endLine) :
    Agree (Took before place) (readFrom operand 0 s) (place.readToken operand) := by
  have hpast : (skipGaps (s.cursor.rest.length + 1) { s with lookahead := 0 }).map cursor =
      place.pastGaps := by
    rw [← hgaps]
    exact map_cursor_skipGaps_pastGaps (s := { s with lookahead := 0 }) hnewlines
      (Nat.lt_succ_self _)
  rw [readFrom]
  cases hskip : skipGaps (s.cursor.rest.length + 1) { s with lookahead := 0 } with
  | error fault =>
      rw [hskip] at hpast
      rw [Cursor.readToken, ← hpast]
      exact .error
  | ok s₁ =>
      rw [hskip] at hpast
      obtain ⟨hslots, hcurrent, hlookahead, hnewlines₁, -⟩ := skipGaps_sameRing hskip
      refine agree_took_scanHere (s := { s₁ with current := s₁.current + 1 }) hpast.symm hlookahead
        ((hnewlines₁.trans hnewlines).trans hbefore.symm) fun h => ?_
      show Marks place (s₁.slots.get (s₁.current + 1 - 1)).token.endLine
      rw [hslots, add_one_sub_one, hcurrent]
      exact hmarks h

/-- Reading takes the next token if that has been scanned before. -/
theorem agree_took_next_of_leads (hlookahead : s.lookahead = 1)
    (hleads : (s.slots.get (s.current + 1)).Leads place s.cursor) :
    Agree (Took s place) (next operand s) (place.readToken operand) := by
  have hnewline : ¬ ((s.slots.get (s.current + 1)).token.kind = .newline ∧
      ¬ s.newlines = true) := fun h => hleads.kind_ne_newline h.1
  refine Agree.next (R := Took s place) ?_ fun _ _ _ h => h.consume _
  simp only [hlookahead, readFrom, token, slot, hnewline, if_false]
  by_cases hdepends : (s.slots.get (s.current + 1)).token.dependsOnOperand operand = true
  · simp only [hdepends, if_true]
    refine agree_took_scanHere hleads.gaps rfl rfl fun h => ?_
    show Marks place (s.slots.get (s.current + 1 - 1)).token.endLine
    rw [add_one_sub_one]
    exact h
  · simp only [hdepends, if_false, Bool.false_eq_true]
    rw [hleads.readToken_eq (Bool.eq_false_of_not_eq_true hdepends)]
    refine .ok ⟨rfl, rfl, rfl, hleads, fun h => ?_⟩
    show Marks place (s.slots.get (s.current + 1 - 1)).token.endLine
    rw [add_one_sub_one]
    exact h

/-- Reading takes the next token. -/
theorem agree_took_next (hnewlines : s.newlines = false) (hawaits : s.Awaits place) :
    Agree (Took s place) (next operand s) (place.readToken operand) := by
  cases hawaits with
  | nothing hlookahead hcursor =>
      refine Agree.next (R := Took s place) ?_ fun _ _ _ h => h.consume _
      rw [hlookahead]
      exact agree_took_readFrom hnewlines (by rw [hcursor]) hnewlines id
  | token hlookahead hleads => exact agree_took_next_of_leads hlookahead hleads
  | newline hlookahead hkind hmarks _ hgaps =>
      have hskipped : (s.slots.get (s.current + 1)).token.kind = .newline ∧ ¬ s.newlines = true :=
        ⟨hkind, by simp [hnewlines]⟩
      have hread : readFrom operand s.lookahead s =
          readFrom operand 0 { s with lookahead := 0, current := s.current + 1 } := by
        rw [hlookahead, readFrom]
        exact if_pos hskipped
      refine Agree.next (R := Took s place) ?_ fun _ _ _ h => h.consume _
      rw [hread]
      exact agree_took_readFrom (s := { s with lookahead := 0, current := s.current + 1 })
        hnewlines hgaps hnewlines fun _ => hmarks

theorem Agree.exists_of_ok {α σ ρ : Type} {R : σ → ρ → Prop} {a : α} {s : σ}
    {y : Except Fault (α × ρ)} (h : Agree R (.ok (a, s)) y) : ∃ r, y = .ok (a, r) ∧ R s r := by
  cases h with
  | ok hR => exact ⟨_, rfl, hR⟩

theorem Took.awaits (h : Took s place s' place') : s'.giveBack.Awaits place := by
  refine .token (congrArg (· + 1) h.lookahead) ?_
  show (s'.slots.get (s'.current - 1 + 1)).Leads place s'.cursor
  rw [sub_one_add_one, h.cursor]
  exact h.leads

theorem Awaits.newlines (h : s.Awaits place) (newlines : Bool) :
    Stream.Awaits { s with newlines } place := by
  cases h with
  | nothing hlookahead hcursor => exact .nothing hlookahead hcursor
  | token hlookahead hleads => exact .token hlookahead hleads
  | newline hlookahead hkind hmarks hbroken hgaps =>
      exact .newline hlookahead hkind hmarks hbroken hgaps

theorem Awaits.consumed (h : s.Awaits place) (consumed : List Token) :
    Stream.Awaits { s with consumed } place := by
  cases h with
  | nothing hlookahead hcursor => exact .nothing hlookahead hcursor
  | token hlookahead hleads => exact .token hlookahead hleads
  | newline hlookahead hkind hmarks hbroken hgaps =>
      exact .newline hlookahead hkind hmarks hbroken hgaps

/-- Where the gaps that are passed over end: at the next token, or at a line break before it. -/
theorem pastGaps_of_skipGaps {fuel : Nat} (h : skipGaps fuel s = .ok s')
    (hfuel : s.cursor.rest.length < fuel) :
    s'.cursor.pastGaps = s.cursor.pastGaps ∧
      (gap? s'.cursor.rest = none ∨ ∃ n, gap? s'.cursor.rest = some (.lineBreak n)) := by
  induction fuel generalizing s with
  | zero => omega
  | succ fuel ih =>
      have hstep : ∀ {s₁ : Stream} {gap : Gap} {n : Nat}, gap? s.cursor.rest = some gap →
          (gap = .blank ∧ n = 1 ∨ gap = .lineBreak n ∨ gap = .comment n) →
          s₁.cursor = s.cursor.advance n → skipGaps fuel s₁ = .ok s' →
          s'.cursor.pastGaps = s.cursor.pastGaps ∧
            (gap? s'.cursor.rest = none ∨ ∃ n, gap? s'.cursor.rest = some (.lineBreak n)) := by
        intro s₁ gap n hgap hn hcursor h₁
        obtain ⟨hne, hpos⟩ := gap?_progress hgap
        have hlength := List.length_pos_iff.mpr hne
        have hn' : 0 < n := by
          obtain ⟨-, rfl⟩ | hother := hn
          · exact Nat.one_pos
          · exact hpos n hother
        obtain ⟨hpast, hend⟩ := ih h₁ (by
          rw [hcursor, Cursor.advance_rest, List.length_drop]
          omega)
        refine ⟨hpast.trans ?_, hend⟩
        rw [hcursor, Cursor.pastGaps_of_gap? hgap hn]
      unfold skipGaps at h
      split at h
      case h_1 hgap =>
          obtain rfl : s = s' := Except.ok.inj h
          exact ⟨rfl, .inl hgap⟩
      case h_2 hgap => exact hstep hgap (.inl ⟨rfl, rfl⟩) rfl h
      case h_3 n hgap =>
          split at h
          · obtain rfl : s = s' := Except.ok.inj h
            exact ⟨rfl, .inr ⟨n, hgap⟩⟩
          · exact hstep hgap (.inr (.inl rfl)) rfl h
      case h_4 hgap => exact hstep hgap (.inr (.inr rfl)) rfl h
      case h_5 => cases h

/-! ### Calls that succeed -/

variable {t : Token}

theorem peek_eq_ok (h : peek operand s = .ok (t, s')) :
    ∃ s₁, next operand s = .ok (t, s₁) ∧ s₁.giveBack = s' := by
  cases hnext : next operand s with
  | error fault =>
      simp only [peek, bind, StateT.bind, hnext, Except.bind] at h
      cases h
  | ok result =>
      simp only [peek, bind, StateT.bind, hnext, Except.bind] at h
      cases h
      exact ⟨_, rfl, rfl⟩

theorem nextIf_eq_ok {test : Token → Bool} {found : Bool}
    (h : nextIf operand test s = .ok (found, s')) :
    ∃ t s₁, next operand s = .ok (t, s₁) ∧ s' = if found then s₁ else s₁.giveBack := by
  cases hnext : next operand s with
  | error fault =>
      simp only [nextIf, bind, StateT.bind, hnext, Except.bind] at h
      cases h
  | ok result =>
      simp only [nextIf, bind, StateT.bind, hnext, Except.bind] at h
      split at h
      all_goals
        cases h
        exact ⟨_, _, rfl, rfl⟩

theorem peekOnLine_eq (operand : Bool) (s : Stream) :
    peekOnLine operand s = (peek operand { s with newlines := true }).bind fun r =>
      .ok (if r.1.kind ≠ .newline ∧ r.1.span.line > s.token.endLine ∧ s.token.endLine > 0 then
        (⟨.newline, ⟨s.token.endLine, r.1.span.start, r.1.span.start⟩, s.token.endLine, none⟩ :
          Token) else r.1, { r.2 with newlines := false }) := by
  simp only [peekOnLine, bind, StateT.bind, Except.bind, modify, modifyGet, get, getThe,
    MonadStateOf.get, StateT.get, MonadStateOf.modifyGet, StateT.modifyGet, pure, Except.pure]
  cases peek operand { s with newlines := true } with
  | error fault => rfl
  | ok r =>
      dsimp only
      split <;> rfl

theorem peekOnLine_eq_ok (h : peekOnLine operand s = .ok (t, s')) :
    ∃ found s₁, next operand { s with newlines := true } = .ok (found, s₁) ∧
      s' = { s₁.giveBack with newlines := false } ∧
      t = if found.kind ≠ .newline ∧ found.span.line > s.token.endLine ∧ s.token.endLine > 0 then
        ⟨.newline, ⟨s.token.endLine, found.span.start, found.span.start⟩, s.token.endLine, none⟩
      else found := by
  rw [peekOnLine_eq] at h
  cases hpeek : peek operand { s with newlines := true } with
  | error fault => rw [hpeek] at h; cases h
  | ok r =>
      rw [hpeek] at h
      obtain ⟨ht, hs⟩ := Prod.mk.inj (Except.ok.inj h)
      obtain ⟨t₁, s₂⟩ := r
      obtain ⟨s₁, hnext, hback⟩ := peek_eq_ok hpeek
      exact ⟨t₁, s₁, hnext, by rw [← hs, hback], ht.symm⟩

/-! ### What a call leaves -/

theorem scan_of_lineBreak {text : List Char} {n : Nat} (h : gap? text = some (.lineBreak n)) :
    Lexeme.scan operand text = .ok (plain .newline n) := by
  cases text with
  | nil => cases h
  | cons c rest =>
      simp only [gap?] at h
      split at h
      · cases h
      split at h
      case isTrue hbreak =>
          rw [Option.some.injEq, Gap.lineBreak.injEq] at h
          rw [Lexeme.scan, if_pos hbreak, h]
      case isFalse =>
      split at h
      · cases h
      split at h
      · split at h <;> cases h
      · cases h

/-- A stream stands at a place of a text, behind the token that was consumed last. -/
structure Follows (line : Nat) (text : List Char) (s : Stream) (place : Cursor) : Prop where
  newlines : s.newlines = false
  within : place.Within line text
  awaits : s.Awaits place

/-- A line break that is scanned stands before the next token. -/
theorem awaits_of_scanHere_lineBreak {n : Nat} {s₁ : Stream}
    (hscan : scanHere operand s = .ok (t, s₁)) (hgap : gap? s.cursor.rest = some (.lineBreak n))
    (hpast : s.cursor.pastGaps = place.pastGaps) (hbroken : place.Broken)
    (hmarks : Marks s.cursor s.cursor.line) (hlookahead : s.lookahead = 0) :
    t.kind = .newline ∧ s₁.giveBack.Awaits place ∧
      s₁.giveBack.slot = s.slots.get (s.current - 1) := by
  rw [scanHere_eq (scan_of_lineBreak hgap)] at hscan
  obtain ⟨rfl, rfl⟩ := Prod.mk.inj (Except.ok.inj hscan)
  have hslot := slot_scanned s (plain .newline n)
  have hfilled : (s.scanned (plain .newline n)).slots.get
      ((s.scanned (plain .newline n)).current - 1 + 1) = s.slotOf (plain .newline n) := by
    rw [sub_one_add_one]
    exact hslot
  refine ⟨?_, .newline (congrArg (· + 1) ((scanned_lookahead s _).trans hlookahead)) ?_ ?_ hbroken
    ?_, ?_⟩
  · rw [token, hslot]
    rfl
  · exact congrArg (fun slot : Slot => slot.token.kind) hfilled
  · show Marks place ((s.scanned (plain .newline n)).slots.get
      ((s.scanned (plain .newline n)).current - 1 + 1)).token.endLine
    rw [hfilled]
    exact ⟨hmarks.pos, fun place' hplace => (hmarks.line_lt_iff place' (hpast.trans hplace)).trans
      (iff_of_true (Cursor.broken_of_lineBreak hgap) hbroken)⟩
  · show (s.scanned (plain .newline n)).cursor.pastGaps = _
    rw [scanned_cursor, ← hpast]
    exact (Cursor.pastGaps_of_gap? hgap (.inr (.inl rfl))).symm
  · have hne : ∀ i : Fin 4, i ≠ i - 1 := by decide
    show (s.scanned _).slots.get ((s.scanned _).current - 1) = _
    rw [scanned_slots, scanned_current, get_set_ne _ (hne _)]

/-- Where line breaks are tokens, one that has been looked at is read. -/
theorem next_of_newline (hlookahead : s.lookahead = 1)
    (hkind : (s.slots.get (s.current + 1)).token.kind = .newline) :
    next operand { s with newlines := true } =
      .ok ((s.slots.get (s.current + 1)).token,
        consume { s with newlines := true, lookahead := 0, current := s.current + 1 }
          (s.slots.get (s.current + 1)).token) := by
  have hdepends : (s.slots.get (s.current + 1)).token.dependsOnOperand operand = false := by
    rw [Token.dependsOnOperand, hkind]
  refine next_of_readFrom ?_
  simp only [hlookahead, readFrom, token, slot, hdepends, Bool.false_eq_true,
    not_true_eq_false, and_false, if_false]

/-- What reading finds where line breaks are tokens: the next token, or a line break before it. -/
theorem Follows.next_newlines (h : Follows line text s place) (hlines : Cursor.Numbered line text)
    {s₁ : Stream}
    (hnext : next operand { s with newlines := true } = .ok (t, s₁)) :
    (∃ place₁, place.readToken operand = .ok (t, place₁) ∧
      Took { s with newlines := true } place s₁ place₁) ∨
    (t.kind = .newline ∧ place.Broken ∧ s₁.giveBack.Awaits place ∧
      s₁.giveBack.slot = s.slot) := by
  cases h.awaits with
  | token hlookahead hleads =>
      have hagree : Agree (Took { s with newlines := true } place)
          (Stream.next operand { s with newlines := true }) (place.readToken operand) :=
        agree_took_next_of_leads hlookahead hleads
      rw [hnext] at hagree
      exact .inl hagree.exists_of_ok
  | newline hlookahead hkind hmarks hbroken hgaps =>
      rw [next_of_newline hlookahead hkind] at hnext
      obtain ⟨rfl, rfl⟩ := Prod.mk.inj (Except.ok.inj hnext)
      refine .inr ⟨hkind, hbroken, .newline rfl ?_ ?_ hbroken hgaps, ?_⟩
      · show (s.slots.get (s.current + 1 - 1 + 1)).token.kind = _
        rw [sub_one_add_one]
        exact hkind
      · show Marks place (s.slots.get (s.current + 1 - 1 + 1)).token.endLine
        rw [sub_one_add_one]
        exact hmarks
      · show s.slots.get (s.current + 1 - 1) = _
        rw [add_one_sub_one]
        rfl
  | nothing hlookahead hcursor =>
      obtain ⟨s₀, hread, rfl⟩ := next_eq_ok hnext
      replace hread : readFrom operand s.lookahead { s with newlines := true } = .ok (t, s₀) :=
        hread
      rw [hlookahead, readFrom] at hread
      cases hskip : skipGaps (s.cursor.rest.length + 1)
          { s with newlines := true, lookahead := 0 } with
      | error fault => rw [hskip] at hread; cases hread
      | ok s₂ =>
          rw [hskip] at hread
          replace hread : scanHere operand { s₂ with current := s₂.current + 1 } = .ok (t, s₀) :=
            hread
          obtain ⟨hslots, hcurrent, hlookahead₂, hnewlines₂, -⟩ := skipGaps_sameRing hskip
          obtain ⟨hpast, hend⟩ := pastGaps_of_skipGaps hskip (Nat.lt_succ_self _)
          replace hpast : s₂.cursor.pastGaps = place.pastGaps := by rw [hpast, ← hcursor]
          have hcurrent₂ : s₂.slots.get (s₂.current + 1 - 1) = s.slot := by
            rw [hslots, add_one_sub_one, hcurrent]
            rfl
          rcases hend with hgap | ⟨n, hgap⟩
          · left
            have hgaps : place.pastGaps = .ok s₂.cursor := by
              rw [← hpast, Cursor.pastGaps_of_gap?_eq_none hgap]
            have hmarks : Marks place s.token.endLine →
                Marks place (s₂.slots.get (s₂.current + 1 - 1)).token.endLine := fun hmarks => by
              rw [hcurrent₂]
              exact hmarks
            have hagree : Agree (Took { s with newlines := true } place)
                (scanHere operand { s₂ with current := s₂.current + 1 })
                (place.readToken operand) :=
              agree_took_scanHere hgaps hlookahead₂ hnewlines₂ hmarks
            rw [hread] at hagree
            obtain ⟨place₁, hplace₁, htook⟩ := hagree.exists_of_ok
            exact ⟨place₁, hplace₁, htook.consume t⟩
          · right
            obtain ⟨k, hk⟩ := exists_advance_of_skipGaps hskip
            replace hk : s₂.cursor = place.advance k := by rw [hk, ← hcursor]
            have hbroken₂ := Cursor.broken_of_lineBreak hgap
            have hbroken : place.Broken := .of_advance (hk ▸ hpast) (hk ▸ hbroken₂)
            have hwithin : s₂.cursor.Within line text := hk ▸ h.within.advance k
            obtain ⟨hkind, hawaits, hslot⟩ := awaits_of_scanHere_lineBreak hread hgap hpast hbroken
              (marks_line hwithin hlines) hlookahead₂
            exact ⟨hkind, hbroken, hawaits.consumed s₀.consumed, hslot.trans hcurrent₂⟩

/-- Asking for a line break leaves the stream before the same token, and tells whether a line break
stands before it. -/
theorem Follows.peekOnLine (h : Follows line text s place) (hlines : Cursor.Numbered line text)
    (hpeek : peekOnLine operand s = .ok (t, s')) :
    Follows line text s' place ∧
      (Marks place s.token.endLine → Marks place s'.token.endLine ∧
        (t.kind = .newline ↔ place.Broken) ∧
        (t.kind ≠ .newline → (place.readToken operand).map Prod.fst = .ok t)) := by
  obtain ⟨found, s₁, hnext, rfl, rfl⟩ := peekOnLine_eq_ok hpeek
  rcases h.next_newlines hlines hnext with ⟨place₁, hread, htook⟩ | ⟨hkind, hbroken, hawaits, hslot⟩
  · refine ⟨⟨rfl, h.within, htook.awaits.newlines false⟩, fun hmarks => ⟨htook.marks hmarks, ?_⟩⟩
    obtain ⟨slot, rfl, hleads⟩ := Cursor.leads_of_readToken hread
    have hlater : slot.token.span.line > s.token.endLine ↔ place.Broken := by
      rw [hleads.line_eq]
      exact hmarks.line_lt_iff _ hleads.gaps
    by_cases hbroken : place.Broken
    · rw [if_pos ⟨hleads.kind_ne_newline, hlater.mpr hbroken, hmarks.pos⟩]
      exact ⟨iff_of_true rfl hbroken, fun hkind => absurd rfl hkind⟩
    · rw [if_neg fun hcond => hbroken (hlater.mp hcond.2.1), hread]
      exact ⟨iff_of_false hleads.kind_ne_newline hbroken, fun _ => rfl⟩
  · rw [if_neg fun hcond => hcond.1 hkind]
    refine ⟨⟨rfl, h.within, hawaits.newlines false⟩, fun hmarks => ⟨?_, iff_of_true hkind hbroken,
      fun hne => absurd hkind hne⟩⟩
    have htoken : s₁.giveBack.token = s.token := congrArg Slot.token hslot
    show Marks place s₁.giveBack.token.endLine
    rw [htoken]
    exact hmarks

/-- Reading on consumes the next token. -/
theorem Follows.next (h : Follows line text s place) (hlines : Cursor.Numbered line text)
    (hnext : next operand s = .ok (t, s')) :
    ∃ place', Took s place s' place' ∧ Follows line text s' place' ∧
      Marks place' s'.token.endLine ∧ t.behind text = place' ∧ s'.token.behind text = place' := by
  have hagree : Agree (Took s place) (Stream.next operand s) (place.readToken operand) :=
    agree_took_next h.newlines h.awaits
  rw [hnext] at hagree
  obtain ⟨place', hread, htook⟩ := hagree.exists_of_ok
  obtain ⟨slot, rfl, hleads⟩ := Cursor.leads_of_readToken hread
  obtain ⟨n, hn⟩ := Cursor.exists_advance_of_pastGaps hleads.gaps
  obtain ⟨_, l, -, -, hplace⟩ := hleads.exists_tokenOf
  have hwithin : place'.Within line text := by
    rw [hplace, hn]
    exact (h.within.advance n).advance l.length
  have hbehind := htook.leads.behind_eq hwithin
  refine ⟨place', htook, ⟨htook.newlines.trans h.newlines, hwithin,
    .nothing htook.lookahead htook.cursor⟩, ?_, hleads.behind_eq hwithin, hbehind⟩
  have hlines' : s'.token.endLine = place'.line := congrArg Cursor.line hbehind
  rw [hlines']
  exact marks_line hwithin hlines

/-- Giving a token back leaves the stream where it was. -/
theorem Took.follows (htook : Took s place s' place') (h : Follows line text s place) :
    Follows line text s'.giveBack place :=
  ⟨htook.newlines.trans h.newlines, h.within, htook.awaits⟩

/-! ### Whole runs -/

end Stream

/-- A call of the grammar that reads on. -/
inductive Advance where
  | next (operand : Bool)
  | peek (operand : Bool)
  | accept (operand : Bool) (sign : Punctuator)
  | acceptWord (operand : Bool) (word : Keyword)
  | peekOnLine (operand : Bool)
  deriving DecidableEq, Repr

namespace Stream

variable {s s' : Stream} {place place' : Cursor} {line : Nat} {text : List Char} {operand : Bool}
variable {t : Token}

def advance : Advance → Reading (Option Token)
  | .next operand => return some (← next operand)
  | .peek operand => do
    let _ ← peek operand
    return none
  | .accept operand sign => do
    if ← accept operand sign then return some (← get).token
    return none
  | .acceptWord operand word => do
    if ← acceptWord operand word then return some (← get).token
    return none
  | .peekOnLine operand => do
    let _ ← peekOnLine operand
    return none

/-- Carries out calls one after the other. Gives the token that was consumed last. -/
def advanceAll (last : Option Token) : List Advance → Reading (Option Token)
  | [] => return last
  | call :: rest => do advanceAll ((← advance call) <|> last) rest

/-- A stream stands behind the token that was consumed last, if there is one. -/
def StandsBehind (line : Nat) (text : List Char) (last : Option Token) (s : Stream) : Prop :=
  ∃ place, Follows line text s place ∧
    ∀ t ∈ last, t.behind text = place ∧ Marks place s.token.endLine

theorem StandsBehind.nextIf {last : Option Token} (h : StandsBehind line text last s)
    (hlines : Cursor.Numbered line text) {test : Token → Bool} {found : Bool}
    (hrun : nextIf operand test s = .ok (found, s')) :
    StandsBehind line text (if found then some s'.token else last) s' := by
  obtain ⟨place, hs, hlast⟩ := h
  obtain ⟨t, s₁, hnext, rfl⟩ := nextIf_eq_ok hrun
  obtain ⟨place', htook, hs', hmarks, -, hbehind⟩ := hs.next hlines hnext
  cases found with
  | true =>
      refine ⟨place', hs', ?_⟩
      rintro _ ⟨⟩
      exact ⟨hbehind, hmarks⟩
  | false =>
      exact ⟨place, htook.follows hs, fun t ht => ⟨(hlast t ht).1, htook.marks (hlast t ht).2⟩⟩

theorem bind_eq_ok {α β : Type} {m : Reading α} {f : α → Reading β} {b : β}
    (h : (m >>= f) s = .ok (b, s')) : ∃ a s₁, m s = .ok (a, s₁) ∧ f a s₁ = .ok (b, s') := by
  cases hm : m s with
  | error fault =>
      simp only [bind, StateT.bind, hm, Except.bind] at h
      cases h
  | ok result =>
      simp only [bind, StateT.bind, hm, Except.bind] at h
      exact ⟨_, _, rfl, h⟩

/-- A call to read a token if it satisfies a test consumes the token then. -/
theorem takenIf_eq_ok {m : Reading Bool} {taken : Option Token}
    (h : (do if ← m then return some (← get).token else return none : Reading (Option Token)) s =
      .ok (taken, s')) :
    ∃ found, m s = .ok (found, s') ∧ taken = if found then some s'.token else none := by
  obtain ⟨found, s₁, hrun, hrest⟩ := bind_eq_ok h
  cases found with
  | true =>
      cases hrest
      exact ⟨true, hrun, rfl⟩
  | false =>
      cases hrest
      exact ⟨false, hrun, rfl⟩

/-- What one call leaves. -/
theorem StandsBehind.advance {last taken : Option Token} (h : StandsBehind line text last s)
    (hlines : Cursor.Numbered line text) {call : Advance} (hrun : advance call s = .ok (taken, s')) :
    StandsBehind line text (taken <|> last) s' := by
  have hif : ∀ {operand : Bool} {test : Token → Bool} {found : Bool},
      Stream.nextIf operand test s = .ok (found, s') →
        taken = (if found then some s'.token else none) →
          StandsBehind line text (taken <|> last) s' := by
    rintro operand test found hfound rfl
    have hs' := h.nextIf hlines hfound
    cases found <;> exact hs'
  obtain ⟨place, hs, hlast⟩ := h
  cases call with
  | next operand =>
      obtain ⟨t, s₁, hnext, hrest⟩ := bind_eq_ok hrun
      cases hrest
      obtain ⟨place', -, hs', hmarks, hbehind, -⟩ := hs.next hlines hnext
      refine ⟨place', hs', ?_⟩
      rintro _ ⟨⟩
      exact ⟨hbehind, hmarks⟩
  | peek operand =>
      obtain ⟨t, s₁, hpeek, hrest⟩ := bind_eq_ok hrun
      cases hrest
      obtain ⟨s₂, hnext, rfl⟩ := peek_eq_ok hpeek
      obtain ⟨place', htook, -⟩ := hs.next hlines hnext
      exact ⟨place, htook.follows hs, fun t ht => ⟨(hlast t ht).1, htook.marks (hlast t ht).2⟩⟩
  | accept operand sign =>
      obtain ⟨found, hfound, htaken⟩ := takenIf_eq_ok hrun
      exact hif hfound htaken
  | acceptWord operand word =>
      obtain ⟨found, hfound, htaken⟩ := takenIf_eq_ok hrun
      exact hif hfound htaken
  | peekOnLine operand =>
      obtain ⟨t, s₁, hpeek, hrest⟩ := bind_eq_ok hrun
      cases hrest
      obtain ⟨hs', hmarks⟩ := hs.peekOnLine hlines hpeek
      exact ⟨place, hs', fun t ht => ⟨(hlast t ht).1, (hmarks (hlast t ht).2).1⟩⟩

/-- What calls one after the other leave. -/
theorem StandsBehind.advanceAll {calls : List Advance} {last last' : Option Token}
    (h : StandsBehind line text last s) (hlines : Cursor.Numbered line text)
    (hrun : advanceAll last calls s = .ok (last', s')) : StandsBehind line text last' s' := by
  induction calls generalizing last s with
  | nil =>
      cases hrun
      exact h
  | cons call rest ih =>
      obtain ⟨taken, s₁, hcall, hrest⟩ := bind_eq_ok hrun
      exact ih (h.advance hlines hcall) hrest

theorem standsBehind_ofChars (line : Nat) (text : List Char) :
    StandsBehind line text none (ofChars line text) :=
  ⟨.start line text, ⟨rfl, Cursor.within_start line text, .nothing rfl rfl⟩, by simp⟩

end Stream

/-- After any calls on the stream of a text whose line numbers do not overflow, at least one of
which has consumed a token, asking for a line break gives one if and only if one stands between
that token and the next one, be it in a comment. Otherwise it gives the next token. In both cases
the next token is the same as before; it starts where the blanks, line breaks and comments behind
the token consumed last end. -/
theorem Stream.peekOnLine_exact {line : Nat} {text : List Char} {calls : List Advance}
    {last t : Token} {s s' : Stream} {operand : Bool} (hline : 1 ≤ line)
    (hlines : line + lineBreaks text < 2 ^ 32)
    (hcalls : advanceAll none calls (ofChars line text) = .ok (some last, s))
    (hpeek : peekOnLine operand s = .ok (t, s')) :
    (t.kind = .newline ↔ ∃ c ∈ (last.behind text).gaps, isLineBreak c) ∧
      (t.kind ≠ .newline → Prod.fst <$> next operand s = .ok t) ∧
      ∀ operand', Prod.fst <$> next operand' s' = Prod.fst <$> next operand' s ∧
        ∀ t', Prod.fst <$> next operand' s = .ok t' →
          t'.kind ≠ .newline ∧
            t'.span.start = last.span.stop + (last.behind text).gaps.length := by
  have hnumbered : Cursor.Numbered line text := ⟨hline, hlines⟩
  obtain ⟨place, hs, hlast⟩ := (standsBehind_ofChars line text).advanceAll hnumbered hcalls
  obtain ⟨rfl, hmarks⟩ := hlast last rfl
  obtain ⟨hs', hanswer⟩ := hs.peekOnLine hnumbered hpeek
  obtain ⟨-, hbreak, htoken⟩ := hanswer hmarks
  have hread : ∀ operand, Prod.fst <$> next operand s =
      Prod.fst <$> (last.behind text).readToken operand :=
    fun operand => (agree_took_next hs.newlines hs.awaits).fst_eq
  have hread' : ∀ operand, Prod.fst <$> next operand s' =
      Prod.fst <$> (last.behind text).readToken operand :=
    fun operand => (agree_took_next hs'.newlines hs'.awaits).fst_eq
  refine ⟨hbreak, fun hkind => (hread operand).trans (htoken hkind), fun operand' =>
    ⟨(hread' operand').trans (hread operand').symm, fun t' ht' => ?_⟩⟩
  rw [hread] at ht'
  cases hplace : (last.behind text).readToken operand' with
  | error fault => rw [hplace] at ht'; cases ht'
  | ok result =>
      rw [hplace] at ht'
      obtain ⟨t₁, place₁⟩ := result
      obtain rfl : t₁ = t' := Except.ok.inj ht'
      obtain ⟨slot, hslot, hleads⟩ := Cursor.leads_of_readToken hplace
      rw [← hslot]
      refine ⟨hleads.kind_ne_newline, ?_⟩
      rw [hleads.start_eq, hs.within.offset_pastGaps hleads.gaps]
      rfl

/-- Calls that scan a token and the next one, ask for a line break before that one, which is in
front of it already, read it and meet a line break inside a comment. -/
def Advance.lineBreaks : List Advance :=
  [.next true, .peek false, .peekOnLine true, .accept false .assign, .next true, .peekOnLine false]

theorem Stream.peekOnLine_exact_comment :
    ∃ last t s s', advanceAll none Advance.lineBreaks (ofChars 1 "a\n= b /* c\n*/ d".toList) =
        .ok (some last, s) ∧ peekOnLine true s = .ok (t, s') ∧
      (t.kind = .newline ↔
        ∃ c ∈ (last.behind "a\n= b /* c\n*/ d".toList).gaps, isLineBreak c) := by
  have hcalls : (advanceAll none Advance.lineBreaks
      (ofChars 1 "a\n= b /* c\n*/ d".toList)).toOption.any fun result =>
        result.1.isSome && (peekOnLine true result.2).isOk := by decide +kernel
  cases hrun : advanceAll none Advance.lineBreaks (ofChars 1 "a\n= b /* c\n*/ d".toList) with
  | error fault => rw [hrun] at hcalls; cases hcalls
  | ok result =>
      obtain ⟨last, s⟩ := result
      rw [hrun] at hcalls
      obtain ⟨hlast, hpeek⟩ := Bool.and_eq_true_iff.mp hcalls
      obtain ⟨last, rfl⟩ := Option.isSome_iff_exists.mp hlast
      cases hpeek' : peekOnLine true s with
      | error fault => rw [hpeek'] at hpeek; cases hpeek
      | ok found =>
          exact ⟨last, found.1, s, found.2, rfl, hpeek',
            (peekOnLine_exact (by decide) (by decide) hrun hpeek').1⟩

/-- Behind the last line number a line break goes unnoticed if the next token has been looked at: it
is on a line with a lower number. -/
theorem Stream.peekOnLine_twoLines :
    ∃ last t s s', advanceAll none [.next false, .peek false] (ofChars (2 ^ 32 - 1) twoLines) =
        .ok (some last, s) ∧ peekOnLine false s = .ok (t, s') ∧ t.kind ≠ .newline ∧
      ∃ c ∈ (last.behind twoLines).gaps, isLineBreak c := by
  have hcalls : (advanceAll none [.next false, .peek false]
      (ofChars (2 ^ 32 - 1) twoLines)).toOption.any fun result =>
        result.1.any fun last => (last.behind twoLines).gaps.any isLineBreak &&
          (peekOnLine false result.2).toOption.any (·.1.kind != .newline) := by
    decide +kernel
  cases hrun : advanceAll none [.next false, .peek false] (ofChars (2 ^ 32 - 1) twoLines) with
  | error fault => rw [hrun] at hcalls; cases hcalls
  | ok result =>
      obtain ⟨last, s⟩ := result
      rw [hrun] at hcalls
      simp only [Except.toOption, Option.any_some, Option.any_eq_true] at hcalls
      obtain ⟨last, rfl, hboth⟩ := hcalls
      obtain ⟨hbreak, hpeek⟩ := Bool.and_eq_true_iff.mp hboth
      cases hpeek' : peekOnLine false s with
      | error fault => rw [hpeek'] at hpeek; cases hpeek
      | ok found =>
          rw [hpeek'] at hpeek
          exact ⟨last, found.1, s, found.2, rfl, hpeek', bne_iff_ne.mp hpeek,
            List.any_eq_true.mp hbreak⟩

end ScriptMin
