import ScriptMin.Proofs.Token.Scanning

/-!
The token stream on one line of text. Wherever the cursor is and however many tokens were
given back, a stream stands before a certain text: reading takes the first token off that
text, and giving it back undoes the step. The ring of slots, the operand modes and the
rescanning of slashes are hidden behind these two facts.
-/

namespace ScriptMin

open Text Lexeme

/-! ### What the first token says about the text -/

namespace Atom

theorem exists_admits (a : Atom) : ∃ operand, a.admits operand := by
  cases h : a.admits false with
  | true => exact ⟨false, h⟩
  | false =>
      refine ⟨true, ?_⟩
      simp only [admits, Token.dependsOnOperand] at h ⊢
      split at h <;> simp_all

end Atom

namespace Lexeme

theorem scan_kind_ne_newline {operand : Bool} {text : List Char} {l : Lexeme}
    (h : scan operand text = .ok l) (hbreak : ∀ c ∈ text.head?, isLineBreak c = false) :
    l.kind ≠ .newline := by
  unfold scan at h
  split at h
  case h_1 =>
      cases h
      simp [plain]
  case h_2 c rest =>
      rw [if_neg (by simp [hbreak c rfl])] at h
      split at h
      · cases hbody : stringBody c 0 [] 1 rest with
        | error cause => simp [hbody, bind, Except.bind] at h
        | ok found =>
            simp only [hbody, bind, Except.bind, pure, Except.pure, Except.ok.injEq] at h
            subst h
            simp [plain]
      · split at h
        · cases hnumber : number (c :: rest) with
          | error cause => simp [hnumber, bind, Except.bind] at h
          | ok found =>
              simp only [hnumber, bind, Except.bind, pure, Except.pure, Except.ok.injEq] at h
              subst h
              simp [plain]
        · split at h
          · cases h
            simp only [word]
            split <;> simp [plain]
          · split at h
            · unfold regExp at h
              split at h
              · cases h
              · cases h
                simp [plain]
            · split at h
              · cases h
                simp
              · cases h

namespace Starts

variable {text rest rest' : List Char} {a b : Atom}

theorem no_break (h : Starts text a rest) :
    ∀ c ∈ (dropBlanks text).head?, isLineBreak c = false := by
  intro c hc
  obtain ⟨tail, htail⟩ := List.head?_eq_some_iff.mp hc
  cases hbreak : isLineBreak c with
  | false => rfl
  | true =>
      have hgap := h.no_gap
      rw [htail, gap?, hbreak] at hgap
      split at hgap <;> cases hgap

theorem kind_ne_newline (h : Starts text a rest) : a.kind ≠ .newline := by
  obtain ⟨operand, hadmits⟩ := a.exists_admits
  obtain ⟨length, hscan, -⟩ := h.scans operand hadmits
  exact scan_kind_ne_newline hscan h.no_break

theorem suffix (h : Starts text a rest) : rest <:+ text := by
  obtain ⟨operand, hadmits⟩ := a.exists_admits
  obtain ⟨length, -, hrest⟩ := h.scans operand hadmits
  exact (hrest ▸ List.drop_suffix length _).trans (List.dropWhile_suffix isBlank)

/-- Two atoms that a text starts with are the same if one operand mode reads both. -/
theorem unique (h : Starts text a rest) (h' : Starts text b rest') {operand : Bool}
    (ha : a.admits operand) (hb : b.admits operand) : a = b ∧ rest = rest' := by
  obtain ⟨length, hscan, hrest⟩ := h.scans operand ha
  obtain ⟨length', hscan', hrest'⟩ := h'.scans operand hb
  rw [hscan, Except.ok.injEq, Lexeme.mk.injEq] at hscan'
  obtain ⟨hkind, hop, rfl⟩ := hscan'
  refine ⟨?_, hrest.symm.trans hrest'⟩
  cases a
  cases b
  simp_all

end Starts

end Lexeme

/-! ### Cursors -/

namespace Cursor

theorem advance_rest (n : Nat) (c : Cursor) : (advance n c).rest = c.rest.drop n := by
  induction n generalizing c with
  | zero => rfl
  | succ n ih =>
      rw [advance, ih]
      unfold step
      cases h : c.rest with
      | nil => simp [h]
      | cons x rest => rfl

theorem advance_line (n : Nat) {c : Cursor} (h : ∀ x ∈ c.rest, isLineBreak x = false) :
    (advance n c).line = c.line := by
  induction n generalizing c with
  | zero => rfl
  | succ n ih =>
      rw [advance]
      unfold step
      cases hrest : c.rest with
      | nil => exact ih (by simp [hrest])
      | cons x rest =>
          rw [hrest] at h
          rw [ih fun y hy => h y (List.mem_cons_of_mem x hy)]
          simp [completesLine, h x List.mem_cons_self]

end Cursor

/-! ### Slots -/

namespace Slot

/-- A slot filled while reading the given line. -/
structure OnLine (line : Nat) (slot : Slot) : Prop where
  place : slot.place.line = line
  span : slot.token.span.line ≤ line
  endLine : slot.token.endLine = 0 ∨ slot.token.endLine = line

/-- A slot holds the first token of a text. -/
structure Holds (slot : Slot) (text : List Char) (a : Atom) (rest : List Char) : Prop where
  starts : Starts text a rest
  token : slot.token.Is a
  place : slot.place.rest = dropBlanks text

end Slot

namespace Stream

/-- The given number of tokens behind a slot are the first ones of a text, and the cursor
stands behind them. -/
inductive Ahead (slots : Vector Slot 4) (cursor : Cursor) : Nat → Fin 4 → List Char → Prop
  | none {i : Fin 4} : Ahead slots cursor 0 i cursor.rest
  | more {n : Nat} {i : Fin 4} {text rest : List Char} {a : Atom}
      (holds : (slots.get (i + 1)).Holds text a rest) (ahead : Ahead slots cursor n (i + 1) rest) :
      Ahead slots cursor (n + 1) i text

/-- The stream stands before a text, which has no line breaks, and has not met a comment. -/
structure Stands (line : Nat) (s : Stream) (text : List Char) : Prop where
  onLine : ∀ i, (s.slots.get i).OnLine line
  cursor : s.cursor.line = line
  no_comments : s.comments = #[]
  no_breaks : ∀ c ∈ text, isLineBreak c = false
  ahead : Ahead s.slots s.cursor s.lookahead s.current text

theorem stands_ofChars {line : Nat} {text : List Char}
    (h : ∀ c ∈ text, isLineBreak c = false) : Stands line (ofChars line text) text where
  onLine := fun i => by
    have hslot : (ofChars line text).slots.get i =
        ⟨Token.initial, Cursor.start line text, 0⟩ := by
      show (Vector.replicate 4 _)[i.val] = _
      rw [Vector.getElem_replicate]
    rw [hslot]
    exact ⟨rfl, Nat.zero_le line, .inl rfl⟩
  cursor := rfl
  no_comments := rfl
  no_breaks := h
  ahead := .none

@[simp] theorem settle_cursor (s : Stream) (line : Nat) : (s.settle line).cursor = s.cursor := by
  unfold settle
  split <;> rfl

@[simp] theorem settle_slots (s : Stream) (line : Nat) : (s.settle line).slots = s.slots := by
  unfold settle
  split <;> rfl

@[simp] theorem settle_current (s : Stream) (line : Nat) :
    (s.settle line).current = s.current := by
  unfold settle
  split <;> rfl

@[simp] theorem settle_lookahead (s : Stream) (line : Nat) :
    (s.settle line).lookahead = s.lookahead := by
  unfold settle
  split <;> rfl

theorem get_set_self (slots : Vector Slot 4) (i : Fin 4) (slot : Slot) :
    (slots.set i slot i.isLt).get i = slot := by
  show (slots.set i slot i.isLt)[i.val] = slot
  rw [Vector.getElem_set_self]

theorem get_set_ne (slots : Vector Slot 4) {i j : Fin 4} (h : i ≠ j) (slot : Slot) :
    (slots.set i slot i.isLt).get j = slots.get j := by
  have hval : i.val ≠ j.val := fun heq => h (Fin.ext heq)
  show (slots.set i slot i.isLt)[j.val] = slots[j.val]
  rw [Vector.getElem_set_ne i.isLt j.isLt hval]

/-- Whether a lexeme is more than a line break or the end. -/
def isCode (l : Lexeme) : Bool := !(l.kind matches .newline | .endOfInput)

def tokenOf (s : Stream) (l : Lexeme) : Token :=
  let cursor := s.cursor.advance l.length
  ⟨l.kind, ⟨s.cursor.line, s.cursor.offset, cursor.offset⟩,
    if isCode l then cursor.line else s.cursor.line, l.assignOp⟩

def pass (s : Stream) (l : Lexeme) : Stream :=
  let cursor := s.cursor.advance l.length
  if isCode l then
    { ({ s with cursor } : Stream).settle s.cursor.line with
      lastCodeLine := cursor.line, lastLine := cursor.line }
  else { s with cursor }

def slotOf (s : Stream) (l : Lexeme) : Slot := ⟨s.tokenOf l, s.cursor, (s.pass l).comments.size⟩

/-- The stream behind a lexeme at the cursor, with the token in the current slot. -/
def scanned (s : Stream) (l : Lexeme) : Stream :=
  { s.pass l with
    slots := (s.pass l).slots.set (s.pass l).current (s.slotOf l) (s.pass l).current.isLt }

@[simp] theorem slot_scanned (s : Stream) (l : Lexeme) : (s.scanned l).slot = s.slotOf l :=
  get_set_self _ _ _

theorem scanHere_eq {operand : Bool} {s : Stream} {l : Lexeme}
    (h : Lexeme.scan operand s.cursor.rest = .ok l) :
    scanHere operand s = .ok ((s.scanned l).token, s.scanned l) := by
  rw [token, slot_scanned]
  simp only [scanHere, h]
  rfl

@[simp] theorem pass_cursor (s : Stream) (l : Lexeme) :
    (s.pass l).cursor = s.cursor.advance l.length := by
  simp only [pass]
  split
  · exact settle_cursor _ _
  · rfl

@[simp] theorem pass_slots (s : Stream) (l : Lexeme) : (s.pass l).slots = s.slots := by
  simp only [pass]
  split
  · exact settle_slots _ _
  · rfl

@[simp] theorem pass_current (s : Stream) (l : Lexeme) : (s.pass l).current = s.current := by
  simp only [pass]
  split
  · exact settle_current _ _
  · rfl

@[simp] theorem pass_lookahead (s : Stream) (l : Lexeme) :
    (s.pass l).lookahead = s.lookahead := by
  simp only [pass]
  split
  · exact settle_lookahead _ _
  · rfl

theorem pass_comments {s : Stream} (h : s.comments = #[]) (l : Lexeme) :
    (s.pass l).comments = #[] := by
  simp only [pass, settle, h, Array.size_empty, Nat.not_lt_zero, if_false]
  split <;> rfl

/-- The token of a text is read: the current slot holds it, and the stream stands behind it. -/
structure Reads (line : Nat) (s : Stream) (text : List Char) (a : Atom) (rest : List Char) :
    Prop where
  stands : Stands line s rest
  slot : s.slot.Holds text a rest
  no_breaks : ∀ c ∈ text, isLineBreak c = false

theorem Reads.giveBack {line : Nat} {s : Stream} {text rest : List Char} {a : Atom}
    (h : Reads line s text a rest) : Stands line s.giveBack text where
  onLine := h.stands.onLine
  cursor := h.stands.cursor
  no_comments := h.stands.no_comments
  no_breaks := h.no_breaks
  ahead := by
    have hcurrent : s.current - 1 + 1 = s.current := by
      have all : ∀ i : Fin 4, i - 1 + 1 = i := by decide
      exact all s.current
    have hholds : (s.slots.get (s.current - 1 + 1)).Holds text a rest := by
      rw [hcurrent]
      exact h.slot
    have hbehind : Ahead s.slots s.cursor s.lookahead (s.current - 1 + 1) rest := by
      rw [hcurrent]
      exact h.stands.ahead
    exact .more hholds hbehind

/-- Scanning at a token reads it. -/
theorem scanHere_spec {line : Nat} {s : Stream} {text rest : List Char} {a : Atom}
    {operand : Bool} (hrest : s.cursor.rest = dropBlanks text) (hline : s.cursor.line = line)
    (hslots : ∀ i, (s.slots.get i).OnLine line) (hcomments : s.comments = #[])
    (hahead : s.lookahead = 0) (hbreaks : ∀ c ∈ text, isLineBreak c = false)
    (hstarts : Starts text a rest) (hadmits : a.admits operand) :
    ∃ s', scanHere operand s = .ok (s'.token, s') ∧ Reads line s' text a rest ∧
      s'.current = s.current ∧ ∀ i, s.current ≠ i → s'.slots.get i = s.slots.get i := by
  obtain ⟨length, hscan, hdrop⟩ := hstarts.scans operand hadmits
  have hno : ∀ c ∈ s.cursor.rest, isLineBreak c = false := by
    intro c hc
    rw [hrest] at hc
    exact hbreaks c ((List.dropWhile_suffix isBlank).mem hc)
  have hcursor : (s.cursor.advance length).line = line := by
    rw [Cursor.advance_line length hno, hline]
  have hafter : (s.cursor.advance length).rest = rest := by
    rw [Cursor.advance_rest, hrest, hdrop]
  rw [← hrest] at hscan
  have hslot : (s.slotOf ⟨a.kind, a.op, length⟩).OnLine line := by
    refine ⟨hline, hline.le, .inr ?_⟩
    simp only [slotOf, tokenOf]
    split
    · exact hcursor
    · exact hline
  refine ⟨s.scanned ⟨a.kind, a.op, length⟩, scanHere_eq hscan,
    ⟨⟨?_, ?_, ?_, ?_, ?_⟩, ?_, hbreaks⟩, by simp [scanned], fun i hi => ?_⟩
  · intro i
    by_cases hi : s.current = i
    · subst hi
      simpa [scanned, get_set_self] using hslot
    · simpa [scanned, get_set_ne _ hi] using hslots i
  · simpa [scanned] using hcursor
  · exact pass_comments hcomments _
  · exact fun c hc => hbreaks c (hstarts.suffix.mem hc)
  · have hcount : (s.scanned ⟨a.kind, a.op, length⟩).lookahead = 0 := by simp [scanned, hahead]
    have hbehind : (s.scanned ⟨a.kind, a.op, length⟩).cursor.rest = rest := by
      simpa [scanned] using hafter
    rw [hcount, ← hbehind]
    exact .none
  · rw [slot_scanned]
    exact ⟨hstarts, ⟨rfl, rfl⟩, hrest⟩
  · simp [scanned, get_set_ne _ hi]

/-- Passing over blanks. -/
theorem skipGaps_spec {line : Nat} {s : Stream} {fuel : Nat} (hfuel : s.cursor.rest.length < fuel)
    (hline : s.cursor.line = line) (hbreaks : ∀ c ∈ s.cursor.rest, isLineBreak c = false)
    (hgap : gap? (dropBlanks s.cursor.rest) = none) :
    ∃ cursor, skipGaps fuel s = .ok { s with cursor } ∧
      cursor.rest = dropBlanks s.cursor.rest ∧ cursor.line = line := by
  induction fuel generalizing s with
  | zero => omega
  | succ fuel ih =>
      cases hrest : s.cursor.rest with
      | nil =>
          refine ⟨s.cursor, ?_, by rw [hrest]; rfl, hline⟩
          simp [skipGaps, hrest, gap?]
      | cons c rest =>
          rw [hrest] at hfuel hbreaks hgap
          cases hblank : isBlank c with
          | true =>
              have hstep : s.cursor.step = ⟨s.cursor.offset + 1, line, rest⟩ := by
                simp [Cursor.step, hrest, completesLine, hbreaks c List.mem_cons_self, hline]
              have hdrop := dropBlanks_blank_cons hblank rest
              have hnext := ih (s := { s with cursor := s.cursor.step }) (by
                  simp only [hstep]
                  simpa using hfuel) (by rw [hstep]) (by
                  simp only [hstep]
                  exact fun x hx => hbreaks x (List.mem_cons_of_mem c hx)) (by
                  simp only [hstep]
                  rwa [hdrop] at hgap)
              obtain ⟨cursor, hskip, hcursor, hcline⟩ := hnext
              refine ⟨cursor, ?_, ?_, hcline⟩
              · simpa [skipGaps, hrest, gap?, hblank] using hskip
              · rw [hcursor, hstep, hdrop]
          | false =>
              have hdrop : dropBlanks (c :: rest) = c :: rest :=
                dropBlanks_of_head (by simpa using hblank)
              rw [hdrop] at hgap
              exact ⟨s.cursor, by simp [skipGaps, hrest, hgap], by rw [hrest, hdrop], hline⟩

theorem next_of_readFrom {s s' : Stream} {operand : Bool} {t : Token}
    (h : readFrom operand s.lookahead s = .ok (t, s')) :
    next operand s = .ok (t, s'.consume t) := by
  rw [next, h]
  rfl

theorem next_of_readFrom_error {s : Stream} {operand : Bool} {fault : Fault}
    (h : readFrom operand s.lookahead s = .error fault) : next operand s = .error fault := by
  rw [next, h]
  rfl

theorem next_eq_ok {s s' : Stream} {operand : Bool} {t : Token}
    (h : next operand s = .ok (t, s')) :
    ∃ s₁, readFrom operand s.lookahead s = .ok (t, s₁) ∧ s₁.consume t = s' := by
  cases hread : readFrom operand s.lookahead s with
  | error fault =>
      rw [next_of_readFrom_error hread] at h
      cases h
  | ok result =>
      rw [next_of_readFrom hread] at h
      cases h
      exact ⟨result.2, rfl, rfl⟩

theorem Reads.consume {line : Nat} {s : Stream} {text rest : List Char} {a : Atom}
    (h : Reads line s text a rest) (t : Token) : Reads line (s.consume t) text a rest := by
  obtain ⟨⟨honLine, hcursor, hcomments, hbreaks, hahead⟩, hslot, htext⟩ := h
  exact ⟨⟨honLine, hcursor, hcomments, hbreaks, hahead⟩, hslot, htext⟩

/-- Reading takes the first token off the text before which the stream stands. The token read
before it stays in its slot. -/
theorem readFrom_spec {line : Nat} {s : Stream} {text rest : List Char} {a : Atom} {operand : Bool}
    (hs : Stands line s text) (hstarts : Starts text a rest) (hadmits : a.admits operand) :
    ∃ s', readFrom operand s.lookahead s = .ok (s'.token, s') ∧ Reads line s' text a rest ∧
      s'.giveBack.slot = s.slot := by
  have hahead := hs.ahead
  have hring : ∀ i : Fin 4, i + 1 ≠ i ∧ i + 1 - 1 = i := by decide
  -- Scanning fills the slot behind the current one.
  have hscanned : ∀ s' : Stream, s'.current = s.current + 1 →
      (∀ i, s.current + 1 ≠ i → s'.slots.get i = s.slots.get i) → s'.giveBack.slot = s.slot := by
    intro s' hcurrent hslots
    show s'.slots.get (s'.current - 1) = s.slots.get s.current
    rw [hcurrent, (hring _).2]
    exact hslots _ (hring _).1
  cases hcount : s.lookahead with
  | zero =>
      rw [hcount] at hahead
      cases hahead
      obtain ⟨cursor, hskip, hrest, hline⟩ := skipGaps_spec (s := { s with lookahead := 0 })
        (Nat.lt_succ_self _) hs.cursor hs.no_breaks hstarts.no_gap
      simp only [readFrom, hskip, bind, Except.bind]
      obtain ⟨s', hscan, hreads, hcurrent, hslots⟩ := scanHere_spec
        (s := { s with cursor, lookahead := 0, current := s.current + 1 }) hrest hline hs.onLine
        hs.no_comments rfl hs.no_breaks hstarts hadmits
      exact ⟨s', hscan, hreads, hscanned s' hcurrent hslots⟩
  | succ n =>
      rw [hcount] at hahead
      obtain - | @⟨_, _, _, rest', b, hslot, hahead⟩ := hahead
      have hnewline : ¬ ((s.slots.get (s.current + 1)).token.kind = .newline ∧
          ¬ s.newlines = true) := by
        rw [hslot.token.kind]
        exact fun h => hslot.starts.kind_ne_newline h.1
      simp only [readFrom, token, slot, hnewline, if_false, hslot.token.dependsOnOperand]
      cases hb : b.admits operand with
      | true =>
          obtain ⟨rfl, rfl⟩ := hstarts.unique hslot.starts hadmits hb
          refine ⟨{ s with lookahead := n, current := s.current + 1 }, rfl,
            ⟨⟨hs.onLine, hs.cursor, hs.no_comments, ?_, hahead⟩, hslot, hs.no_breaks⟩,
            congrArg s.slots.get (hring s.current).2⟩
          exact fun c hc => hs.no_breaks c (hstarts.suffix.mem hc)
      | false =>
          simp only [Bool.not_false, if_true, rescan, reopen, slot]
          have hcomments : s.comments.extract 0 (s.slots.get (s.current + 1)).commentCount = #[] := by
            rw [hs.no_comments, Array.extract_empty]
          obtain ⟨s', hscan, hreads, hcurrent, hslots⟩ := scanHere_spec
            (s := { s with
              cursor := (s.slots.get (s.current + 1)).place
              lookahead := 0
              current := s.current + 1
              comments := s.comments.extract 0 (s.slots.get (s.current + 1)).commentCount
              unsettled := min s.unsettled
                (s.comments.extract 0 (s.slots.get (s.current + 1)).commentCount).size })
            hslot.place (hs.onLine _).place hs.onLine hcomments rfl hs.no_breaks hstarts hadmits
          exact ⟨s', hscan, hreads, hscanned s' hcurrent hslots⟩

theorem next_spec {line : Nat} {s : Stream} {text rest : List Char} {a : Atom} {operand : Bool}
    (hs : Stands line s text) (hstarts : Starts text a rest) (hadmits : a.admits operand) :
    ∃ s', next operand s = .ok (s'.token, s') ∧ Reads line s' text a rest ∧
      s'.giveBack.slot = s.slot := by
  obtain ⟨s', hread, hreads, hslot⟩ := readFrom_spec hs hstarts hadmits
  exact ⟨s'.consume s'.token, next_of_readFrom hread, hreads.consume _, hslot⟩

/-! ### Streams before atoms -/

/-- The stream stands before the given atoms. -/
def At (line : Nat) (atoms : List Atom) (s : Stream) : Prop :=
  ∃ text, Stands line s text ∧ Readable text atoms

/-- The first of the given atoms is read, and can be given back. -/
def Behind (line : Nat) (atoms : List Atom) (s : Stream) : Prop :=
  ∃ text rest, Reads line s text (Atom.first atoms) rest ∧ Readable text atoms ∧
    Readable rest atoms.tail

theorem at_ofChars {line : Nat} {text : List Char} {atoms : List Atom}
    (hbreaks : ∀ c ∈ text, isLineBreak c = false) (h : Readable text atoms) :
    At line atoms (ofChars line text) :=
  ⟨text, stands_ofChars hbreaks, h⟩

theorem At.newlines {line : Nat} {atoms : List Atom} {s : Stream} (h : At line atoms s)
    (newlines : Bool) : At line atoms { s with newlines } := by
  obtain ⟨text, hs, hreadable⟩ := h
  exact ⟨text, ⟨hs.onLine, hs.cursor, hs.no_comments, hs.no_breaks, hs.ahead⟩, hreadable⟩

/-- Where no comment was met, going back from another state restores what is ahead. -/
theorem At.rewind {line : Nat} {atoms : List Atom} {s : Stream} (h : At line atoms s)
    (s' : Stream) : At line atoms (s.rewind s') := by
  obtain ⟨text, hs, hreadable⟩ := h
  refine ⟨text, ⟨hs.onLine, hs.cursor, ?_, hs.no_breaks, hs.ahead⟩, hreadable⟩
  show s'.comments.extract 0 s.comments.size = #[]
  rw [hs.no_comments]
  exact Array.extract_zero

variable {line : Nat} {atoms : List Atom} {s : Stream} {operand : Bool}

theorem At.onLine (h : At line atoms s) : s.slot.OnLine line := by
  obtain ⟨text, hs, -⟩ := h
  exact hs.onLine s.current

theorem Behind.token (h : Behind line atoms s) : s.token.Is (Atom.first atoms) := by
  obtain ⟨text, rest, hreads, -, -⟩ := h
  exact hreads.slot.token

theorem Behind.tail (h : Behind line atoms s) : At line atoms.tail s := by
  obtain ⟨text, rest, hreads, -, hrest⟩ := h
  exact ⟨rest, hreads.stands, hrest⟩

theorem Behind.giveBack (h : Behind line atoms s) : At line atoms s.giveBack := by
  obtain ⟨text, rest, hreads, htext, -⟩ := h
  exact ⟨text, hreads.giveBack, htext⟩

theorem next_run (h : At line atoms s) (hadmits : (Atom.first atoms).admits operand) :
    ∃ s', next operand s = .ok (s'.token, s') ∧ Behind line atoms s' := by
  obtain ⟨text, hs, hreadable⟩ := h
  obtain ⟨rest, hstarts, hrest⟩ := hreadable.first
  obtain ⟨s', hnext, hreads, -⟩ := next_spec hs hstarts hadmits
  exact ⟨s', hnext, text, rest, hreads, hreadable, hrest⟩

theorem peek_run (h : At line atoms s) (hadmits : (Atom.first atoms).admits operand) :
    ∃ token s', peek operand s = .ok (token, s') ∧ token.Is (Atom.first atoms) ∧
      token.span.line ≤ line ∧ At line atoms s' := by
  obtain ⟨s', hnext, hbehind⟩ := next_run h hadmits
  refine ⟨s'.token, s'.giveBack, ?_, hbehind.token, hbehind.tail.onLine.span, hbehind.giveBack⟩
  simp only [peek, bind, StateT.bind, hnext, Except.bind]
  rfl

/-- A look at the next token leaves the one before it where it can be given back. -/
theorem peek_behind_run (h : Behind line atoms s)
    (hadmits : (Atom.first atoms.tail).admits operand) :
    ∃ token s', peek operand s = .ok (token, s') ∧ token.Is (Atom.first atoms.tail) ∧
      Behind line atoms s' := by
  obtain ⟨text, rest, hreads, htext, hrest⟩ := h
  obtain ⟨rest', hstarts, -⟩ := hrest.first
  obtain ⟨s', hnext, hreads', hslot⟩ := next_spec hreads.stands hstarts hadmits
  refine ⟨s'.token, s'.giveBack, ?_, hreads'.slot.token, text, rest,
    ⟨hreads'.giveBack, hslot ▸ hreads.slot, hreads.no_breaks⟩, htext, hrest⟩
  simp only [peek, bind, StateT.bind, hnext, Except.bind]
  rfl

/-- On one line of text no token is separated from the one before. -/
theorem peekOnLine_run (h : At line atoms s) (hadmits : (Atom.first atoms).admits operand) :
    ∃ token s', peekOnLine operand s = .ok (token, s') ∧ token.Is (Atom.first atoms) ∧
      At line atoms s' := by
  obtain ⟨token, s', hpeek, htoken, hspan, hs'⟩ := peek_run (h.newlines true) hadmits
  have hline : ¬ (token.kind ≠ .newline ∧ token.span.line > s.token.endLine ∧
      s.token.endLine > 0) := by
    rintro ⟨-, hafter, hpos⟩
    have hend : s.token.endLine = 0 ∨ s.token.endLine = line := h.onLine.endLine
    omega
  refine ⟨token, { s' with newlines := false }, ?_, htoken, hs'.newlines false⟩
  simp only [peekOnLine, hpeek, hline, bind, StateT.bind, Except.bind, modify, modifyGet, get,
    getThe, MonadStateOf.get, StateT.get, MonadStateOf.modifyGet, StateT.modifyGet, pure,
    Except.pure, if_false]
  rfl

theorem nextIf_run (h : At line atoms s) (hadmits : (Atom.first atoms).admits operand)
    {test : Token → Bool} (found : Bool)
    (htest : ∀ t : Token, t.Is (Atom.first atoms) → test t = found) :
    ∃ s', nextIf operand test s = .ok (found, s') ∧
      At line (if found then atoms.tail else atoms) s' := by
  obtain ⟨s', hnext, hbehind⟩ := next_run h hadmits
  have hfound := htest s'.token hbehind.token
  cases found with
  | true =>
      refine ⟨s', ?_, hbehind.tail⟩
      simp only [nextIf, bind, StateT.bind, hnext, Except.bind, hfound, if_true]
      rfl
  | false =>
      refine ⟨s'.giveBack, ?_, hbehind.giveBack⟩
      simp only [nextIf, bind, StateT.bind, hnext, Except.bind, hfound, Bool.false_eq_true,
        if_false]
      rfl

end Stream

end ScriptMin
