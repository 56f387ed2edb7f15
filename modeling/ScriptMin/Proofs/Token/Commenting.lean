import Mathlib.Algebra.Order.Group.Multiset
import Mathlib.Tactic.Abel
import ScriptMin.Proofs.Token.LineBreaks

/-!
Where comments are while tokens are read. A comment is passed over once for every time the token
behind it is scanned, but it waits in the stream once: scanning a token again drops what was
collected behind it. So the comments that were handed out and those that wait are, at any time, the
comments between the tokens that were consumed and those that were looked at.
-/

namespace ScriptMin

open Text Lexeme

/-! ### Tokens and comments of a text -/

/-- From the start of a text up to a place the scanner reads the given tokens, one behind the other
and each in one of the operand modes, and passes over the given comments between them. -/
inductive Read (line : Nat) (text : List Char) :
    List Token → List Comment.Extent → Cursor → Prop
  | start : Read line text [] [] (.start line text)
  | token {tokens : List Token} {comments before : List Comment.Extent} {place place' : Cursor}
      {t : Token} {operand : Bool} : Read line text tokens comments place →
      place.readToken operand = .ok (t, place') →
      Gaps line text place.offset before t.span.start →
      Read line text (tokens ++ [t]) (comments ++ before) place'

theorem Gaps.append {line n k m : Nat} {text : List Char} {before behind : List Comment.Extent}
    (h : Gaps line text n before k) (h' : Gaps line text k behind m) :
    Gaps line text n (before ++ behind) m := by
  induction h with
  | nil => exact h'
  | space hc hspace _ ih => exact .space hc hspace (ih h')
  | comment htext hcomment _ ih => exact .comment htext hcomment (ih h')

theorem Slot.Leads.within {slot : Slot} {place place' : Cursor} {line : Nat} {text : List Char}
    (h : slot.Leads place place') (hplace : place.Within line text) :
    slot.place.Within line text ∧ place'.Within line text := by
  obtain ⟨n, hn⟩ := Cursor.exists_advance_of_pastGaps h.gaps
  obtain ⟨_, l, -, -, rfl⟩ := h.exists_tokenOf
  have hslot : slot.place.Within line text := hn ▸ hplace.advance n
  exact ⟨hslot, hslot.advance l.length⟩

theorem Read.within {line : Nat} {text : List Char} {tokens : List Token}
    {comments : List Comment.Extent} {place : Cursor} (h : Read line text tokens comments place) :
    place.Within line text := by
  induction h with
  | start => exact Cursor.within_start line text
  | token _ hread _ ih =>
      obtain ⟨slot, -, hleads⟩ := Cursor.leads_of_readToken hread
      exact (hleads.within ih).2

/-- Whether the operand mode matters for a token, so that it may have to be scanned again. -/
def Token.Ambiguous (t : Token) : Prop := ∃ operand, t.dependsOnOperand operand = true

namespace Stream

variable {line : Nat} {text : List Char} {s s' : Stream} {operand : Bool} {t : Token}
variable {place place' : Cursor} {given passed : Multiset Comment.Extent}

/-! ### Tokens in the ring -/

/-- A slot holds the token behind a gap. `given` are the comments that were handed out, `waiting`
those that wait, `passed` those before the gap and `gap` those in it. A slot whose token may have to
be scanned again marks where the comments in front of the token end. -/
structure Keeps (line : Nat) (text : List Char) (given : Multiset Comment.Extent)
    (waiting : List Comment.Extent) (slot : Slot) (place place' : Cursor)
    (passed : Multiset Comment.Extent) (gap : List Comment.Extent) : Prop where
  leads : slot.Leads place place'
  gaps : Gaps line text place.offset gap slot.place.offset
  mark : slot.token.Ambiguous → given + ↑(waiting.take slot.commentCount) = passed + ↑gap

/-- The token that a slot holds is read behind those before it. -/
theorem Keeps.read {waiting : List Comment.Extent} {slot : Slot} {tokens : List Token}
    {comments gap : List Comment.Extent} {all : Multiset Comment.Extent}
    (h : Keeps line text given waiting slot place place' all gap)
    (hread : Read line text tokens comments place) :
    Read line text (tokens ++ [slot.token]) (comments ++ gap) place' := by
  obtain ⟨operand, htoken⟩ := h.leads.scans
  have hnext : place.readToken operand = .ok (slot.token, place') := by
    rw [Cursor.readToken, h.leads.gaps]
    exact htoken
  refine .token hread hnext ?_
  rw [h.leads.start_eq]
  exact h.gaps

/-- The given number of slots behind a slot hold the next tokens, and the comments up to the cursor
are those that were handed out and those that wait. -/
def Queued (line : Nat) (text : List Char) (given : Multiset Comment.Extent) (s : Stream) :
    Nat → Fin 4 → Cursor → Multiset Comment.Extent → Prop
  | 0, _, place, passed => s.cursor = place ∧ given + ↑s.extents = passed
  | n + 1, i, place, passed =>
    ∃ place' gap, Keeps line text given s.extents (s.slots.get (i + 1)) place place' passed gap ∧
      Queued line text given s n (i + 1) place' (passed + ↑gap)

/-- The next slot holds a line break in a gap, and the cursor stands in the gap. -/
structure Breaks (line : Nat) (text : List Char) (given : Multiset Comment.Extent) (s : Stream)
    (place : Cursor) (passed : Multiset Comment.Extent) : Prop where
  lookahead : s.lookahead = 1
  kind : (s.slots.get (s.current + 1)).token.kind = .newline
  within : s.cursor.Within line text
  pastGaps : s.cursor.pastGaps = place.pastGaps
  gap : ∃ gap, Gaps line text place.offset gap s.cursor.offset ∧
    given + ↑s.extents = passed + ↑gap

/-- No comment is lost between two calls: the tokens that were consumed were read, at most the given
number more were looked at, and the comments in front of all of them are those that were handed out
and those that wait. -/
def Retains (line : Nat) (text : List Char) (ahead : Nat) (given : Multiset Comment.Extent)
    (s : Stream) : Prop :=
  ∃ comments place, Read line text s.consumed.reverse comments place ∧
    (s.lookahead ≤ ahead ∧ Queued line text given s s.lookahead s.current place comments ∨
      1 ≤ ahead ∧ Breaks line text given s place comments)

/-- The current slot holds the token behind a place, at most the given number of tokens behind it
were looked at, and no comment is lost. -/
def FetchedFrom (line : Nat) (text : List Char) (place : Cursor) (passed : Multiset Comment.Extent)
    (ahead : Nat) (given : Multiset Comment.Extent) (t : Token) (s : Stream) : Prop :=
  ∃ place' gap, Keeps line text given s.extents s.slot place place' passed gap ∧ s.token = t ∧
    s.lookahead ≤ ahead ∧ Queued line text given s s.lookahead s.current place' (passed + ↑gap)

/-- A token has just been consumed, no comment is lost, and the token can be given back. -/
def Fetched (line : Nat) (text : List Char) (ahead : Nat) (given : Multiset Comment.Extent)
    (t : Token) (s : Stream) : Prop :=
  ∃ before comments place, s.consumed = t :: before ∧ Read line text before.reverse comments place ∧
    FetchedFrom line text place comments ahead given t s

theorem retains_ofChars (line : Nat) (text : List Char) :
    Retains line text 0 0 (ofChars line text) :=
  ⟨[], _, .start, .inl ⟨Nat.le_refl 0, rfl, rfl⟩⟩

theorem Retains.mono {n m : Nat} (h : Retains line text n given s) (hle : n ≤ m) :
    Retains line text m given s := by
  obtain ⟨comments, place, hread, hqueued | hbreaks⟩ := h
  · exact ⟨comments, place, hread, .inl ⟨hqueued.1.trans hle, hqueued.2⟩⟩
  · exact ⟨comments, place, hread, .inr ⟨hbreaks.1.trans hle, hbreaks.2⟩⟩

theorem FetchedFrom.mono {n m : Nat} (h : FetchedFrom line text place passed n given t s)
    (hle : n ≤ m) : FetchedFrom line text place passed m given t s := by
  obtain ⟨place', gap, hkeeps, ht, hn, hqueued⟩ := h
  exact ⟨place', gap, hkeeps, ht, hn.trans hle, hqueued⟩

/-- The tokens ahead do not depend on the mode for line breaks and on the current slot. -/
theorem Queued.congr {n : Nat} {i : Fin 4} (h : Queued line text given s n i place passed)
    (hcursor : s'.cursor = s.cursor) (hslots : s'.slots = s.slots)
    (hextents : s'.extents = s.extents) : Queued line text given s' n i place passed := by
  induction n generalizing i place passed with
  | zero => exact ⟨hcursor.trans h.1, by rw [hextents, h.2]⟩
  | succ n ih =>
      obtain ⟨place', gap, hkeeps, hrest⟩ := h
      refine ⟨place', gap, ?_, ih hrest⟩
      rw [hslots, hextents]
      exact hkeeps

variable {ahead : Nat}

/-- A token from the ring or from the text is consumed behind those that were consumed before. -/
theorem FetchedFrom.consume {comments : List Comment.Extent} {before : List Token}
    (h : FetchedFrom line text place comments ahead given t s) (hconsumed : s.consumed = before)
    (hread : Read line text before.reverse comments place) :
    Fetched line text ahead given t (s.consume t) := by
  obtain ⟨place', gap, hkeeps, ht, hle, hqueued⟩ := h
  exact ⟨before, comments, place, congrArg (t :: ·) hconsumed, hread, place', gap, hkeeps, ht, hle,
    hqueued.congr rfl rfl rfl⟩

/-- The token read last is not looked at any more. -/
theorem Fetched.retains (h : Fetched line text ahead given t s) :
    Retains line text ahead given s := by
  obtain ⟨before, comments, place, hconsumed, hread, place', gap, hkeeps, rfl, hle, hqueued⟩ := h
  refine ⟨comments ++ gap, place', ?_, .inl ⟨hle, ?_⟩⟩
  · rw [hconsumed, List.reverse_cons]
    exact hkeeps.read hread
  · rw [← Multiset.coe_add]
    exact hqueued

/-- A token that was read is given back. -/
theorem Fetched.giveBack (h : Fetched line text ahead given t s) :
    Retains line text (ahead + 1) given s.giveBack := by
  obtain ⟨before, comments, place, hconsumed, hread, place', gap, hkeeps, -, hle, hqueued⟩ := h
  refine ⟨comments, place, ?_, .inl ⟨Nat.succ_le_succ hle, place', gap, ?_, ?_⟩⟩
  · show Read line text s.consumed.tail.reverse comments place
    rw [hconsumed]
    exact hread
  · show Keeps line text given s.extents (s.slots.get (s.current - 1 + 1)) place place' _ gap
    rw [sub_one_add_one]
    exact hkeeps
  · show Queued line text given s.giveBack s.lookahead (s.current - 1 + 1) place' _
    rw [sub_one_add_one]
    exact hqueued.congr rfl rfl rfl

/-! ### Reading -/

/-- Scanning at the end of a gap reads the token there. -/
theorem fetchedFrom_scanHere {gap : List Comment.Extent} (hscan : scanHere operand s = .ok (t, s'))
    (hgaps : place.pastGaps = .ok s.cursor) (hgap : Gaps line text place.offset gap s.cursor.offset)
    (hlookahead : s.lookahead = 0) (hbalance : given + ↑s.extents = passed + ↑gap) :
    FetchedFrom line text place passed 0 given t s' := by
  obtain ⟨fault, hstream, -⟩ | ⟨l, -, hstream, hplain⟩ := scanHere_tokenHere operand s
  · rw [hstream] at hscan
    cases hscan
  · rw [hstream] at hscan
    obtain ⟨rfl, rfl⟩ := Prod.mk.inj (Except.ok.inj hscan)
    refine ⟨s.cursor.advance l.length, gap, ?_, ?_,
      (scanned_lookahead s l).trans hlookahead |>.le, ?_⟩
    · rw [slot_scanned, extents_scanned]
      refine ⟨⟨hgaps, operand, hplain⟩, hgap, fun _ => ?_⟩
      -- All comments that wait are in front of the token.
      have hcount : (s.slotOf l).commentCount = s.extents.length := by
        rw [← extents_scanned s l, extents, List.length_map, Array.length_toList]
        rfl
      rw [hcount, List.take_length]
      exact hbalance
    · rw [token, slot_scanned]
      rfl
    · rw [scanned_lookahead, hlookahead]
      exact ⟨scanned_cursor s l, by rw [extents_scanned, hbalance]⟩

/-- Scanning on from a place in the gap reads the token behind the gap. -/
theorem fetchedFrom_readFrom {gap : List Comment.Extent}
    (hnext : readFrom operand 0 s = .ok (t, s')) (hnewlines : s.newlines = false)
    (hwithin : s.cursor.Within line text) (hpast : s.cursor.pastGaps = place.pastGaps)
    (hgap : Gaps line text place.offset gap s.cursor.offset)
    (hbalance : given + ↑s.extents = passed + ↑gap) :
    FetchedFrom line text place passed 0 given t s' := by
  rw [readFrom] at hnext
  cases hskip : skipGaps (s.cursor.rest.length + 1) { s with lookahead := 0 } with
  | error fault => rw [hskip] at hnext; cases hnext
  | ok s₁ =>
      rw [hskip] at hnext
      replace hnext : scanHere operand { s₁ with current := s₁.current + 1 } = .ok (t, s') := hnext
      have hend := map_cursor_skipGaps_pastGaps (s := { s with lookahead := 0 }) hnewlines
        (Nat.lt_succ_self _)
      rw [hskip] at hend
      obtain ⟨-, more, hmore, hgaps⟩ := gaps_of_skipGaps hskip hwithin
      replace hmore : s₁.extents = s.extents ++ more := hmore
      refine fetchedFrom_scanHere hnext (hpast.symm.trans hend.symm) (hgap.append hgaps)
        (skipGaps_sameRing hskip).lookahead ?_
      show given + ↑s₁.extents = _
      rw [hmore, ← Multiset.coe_add, ← Multiset.coe_add, ← add_assoc, hbalance, add_assoc]

/-- Reading takes the next token from the ring. -/
theorem fetchedFrom_queued {n : Nat} (hnext : readFrom operand (n + 1) s = .ok (t, s'))
    (hqueued : Queued line text given s (n + 1) s.current place passed) :
    FetchedFrom line text place passed n given t s' := by
  obtain ⟨place', gap, hkeeps, hrest⟩ := hqueued
  have hnewline : ¬ ((s.slots.get (s.current + 1)).token.kind = .newline ∧
      ¬ s.newlines = true) := fun h => hkeeps.leads.kind_ne_newline h.1
  simp only [readFrom, token, slot, hnewline, if_false] at hnext
  by_cases hdepends : (s.slots.get (s.current + 1)).token.dependsOnOperand operand = true
  · simp only [hdepends, if_true] at hnext
    -- What was collected behind the token is dropped.
    have hwaiting : ({ s with
        comments := s.comments.extract 0 (s.slots.get (s.current + 1)).commentCount } :
          Stream).extents = s.extents.take (s.slots.get (s.current + 1)).commentCount := by
      simp [extents]
    have hmark := hkeeps.mark ⟨operand, hdepends⟩
    rw [← hwaiting] at hmark
    exact (fetchedFrom_scanHere hnext hkeeps.leads.gaps hkeeps.gaps rfl hmark).mono (Nat.zero_le n)
  · simp only [hdepends, if_false, Bool.false_eq_true] at hnext
    obtain ⟨rfl, rfl⟩ := Prod.mk.inj (Except.ok.inj hnext)
    exact ⟨place', gap, hkeeps, rfl, Nat.le_refl n, hrest.congr rfl rfl rfl⟩

/-- Scanning leaves the mode for line breaks, the tokens that were consumed and the slot before the
current one. -/
theorem scanHere_leaves (h : scanHere operand s = .ok (t, s')) :
    s'.newlines = s.newlines ∧ s'.consumed = s.consumed ∧
      s'.giveBack.slot = s.giveBack.slot := by
  obtain ⟨fault, hstream, -⟩ | ⟨l, -, hstream, -⟩ := scanHere_tokenHere operand s
  · rw [hstream] at h
    cases h
  · rw [hstream] at h
    obtain ⟨rfl, rfl⟩ := Prod.mk.inj (Except.ok.inj h)
    have hne : ∀ i : Fin 4, i ≠ i - 1 := by decide
    refine ⟨pass_newlines s l, pass_consumed s l, ?_⟩
    show (s.scanned l).slots.get ((s.scanned l).current - 1) = s.slots.get (s.current - 1)
    rw [scanned_slots, scanned_current, get_set_ne _ (hne _)]

theorem readFrom_zero_leaves (h : readFrom operand 0 s = .ok (t, s')) :
    s'.newlines = s.newlines ∧ s'.consumed = s.consumed ∧ s'.giveBack.slot = s.slot := by
  rw [readFrom] at h
  cases hskip : skipGaps (s.cursor.rest.length + 1) { s with lookahead := 0 } with
  | error fault => rw [hskip] at h; cases h
  | ok s₁ =>
      rw [hskip] at h
      obtain ⟨hslots, hcurrent, -, hnewlines, hconsumed⟩ := skipGaps_sameRing hskip
      obtain ⟨hnewlines', hconsumed', hslot⟩ :=
        scanHere_leaves (s := { s₁ with current := s₁.current + 1 }) h
      refine ⟨hnewlines'.trans hnewlines, hconsumed'.trans hconsumed, hslot.trans ?_⟩
      show s₁.slots.get (s₁.current + 1 - 1) = s.slots.get s.current
      rw [hslots, hcurrent, add_one_sub_one]

theorem readFrom_leaves {n : Nat} (h : readFrom operand n s = .ok (t, s')) :
    s'.newlines = s.newlines ∧ s'.consumed = s.consumed := by
  induction n generalizing s with
  | zero => exact ⟨(readFrom_zero_leaves h).1, (readFrom_zero_leaves h).2.1⟩
  | succ n ih =>
      simp only [readFrom] at h
      split at h
      · exact (ih h :)
      split at h
      · exact ⟨(scanHere_leaves h).1, (scanHere_leaves h).2.1⟩
      · cases h
        exact ⟨rfl, rfl⟩

theorem newlines_next (h : next operand s = .ok (t, s')) : s'.newlines = s.newlines := by
  obtain ⟨s₁, hread, rfl⟩ := next_eq_ok h
  exact (readFrom_leaves hread).1

/-- Reading the next token loses no comment. -/
theorem Retains.next (h : Retains line text (ahead + 1) given s) (hnewlines : s.newlines = false)
    (hnext : next operand s = .ok (t, s')) : Fetched line text ahead given t s' := by
  obtain ⟨s₁, hfrom, rfl⟩ := next_eq_ok hnext
  have hconsumed := (readFrom_leaves hfrom).2
  obtain ⟨comments, place, hread, ⟨hle, hqueued⟩ | ⟨-, hbreaks⟩⟩ := h
  · refine FetchedFrom.consume ?_ hconsumed hread
    cases hcount : s.lookahead with
    | zero =>
        rw [hcount] at hqueued hfrom
        obtain ⟨rfl, hbalance⟩ := hqueued
        refine (fetchedFrom_readFrom hfrom hnewlines hread.within rfl (.nil _) ?_).mono
          (Nat.zero_le _)
        simpa using hbalance
    | succ n =>
        rw [hcount] at hqueued hle hfrom
        exact (fetchedFrom_queued hfrom hqueued).mono (Nat.le_of_succ_le_succ hle)
  · obtain ⟨gap, hgap, hbalance⟩ := hbreaks.gap
    have hskipped : (s.slots.get (s.current + 1)).token.kind = .newline ∧ ¬ s.newlines = true :=
      ⟨hbreaks.kind, by simp [hnewlines]⟩
    rw [hbreaks.lookahead, readFrom] at hfrom
    replace hfrom := (if_pos hskipped).symm.trans hfrom
    refine FetchedFrom.consume (.mono ?_ (Nat.zero_le _)) hconsumed hread
    exact fetchedFrom_readFrom (s := { s with lookahead := 0, current := s.current + 1 }) hfrom
      hnewlines hbreaks.within hbreaks.pastGaps hgap hbalance

/-- Looking at the next token loses no comment. -/
theorem Retains.peek (h : Retains line text (ahead + 1) given s) (hnewlines : s.newlines = false)
    (hpeek : peek operand s = .ok (t, s')) : Retains line text (ahead + 1) given s' := by
  obtain ⟨s₁, hnext, rfl⟩ := peek_eq_ok hpeek
  exact (h.next hnewlines hnext).giveBack

/-- A token whose operand mode does not matter can still be given back after a look at the next
one. -/
theorem Fetched.peek {t' : Token} (h : Fetched line text 0 given t s)
    (hnewlines : s.newlines = false) (hambiguous : ¬ t.Ambiguous)
    (hpeek : peek operand s = .ok (t', s')) :
    Fetched line text 1 given t s' := by
  obtain ⟨before, comments, place, hconsumed, hread, place', gap, hkeeps, rfl, hle, hqueued⟩ := h
  obtain ⟨s₂, hnext, rfl⟩ := peek_eq_ok hpeek
  obtain ⟨s₁, hfrom, rfl⟩ := next_eq_ok hnext
  have hzero : s.lookahead = 0 := Nat.le_zero.mp hle
  rw [hzero] at hqueued hfrom
  obtain ⟨rfl, hbalance⟩ := hqueued
  have hwithin := (hkeeps.leads.within hread.within).2
  have hfetched : FetchedFrom line text s.cursor (↑comments + ↑gap) 0 given t' s₁ :=
    fetchedFrom_readFrom hfrom hnewlines hwithin rfl (.nil _) (by simpa using hbalance)
  obtain ⟨place₁, gap₁, hkeeps₁, rfl, hle₁, hqueued₁⟩ := hfetched
  obtain ⟨-, hconsumed₁, hslot⟩ := readFrom_zero_leaves hfrom
  refine ⟨before, comments, place, hconsumed₁.trans hconsumed, hread, s.cursor, gap, ?_, ?_,
    Nat.succ_le_succ hle₁, place₁, gap₁, ?_, ?_⟩
  · show Keeps line text given s₁.extents s₁.giveBack.slot _ _ _ _
    rw [hslot]
    exact ⟨hkeeps.leads, hkeeps.gaps, fun h => absurd h hambiguous⟩
  · exact congrArg Slot.token hslot
  · show Keeps line text given s₁.extents (s₁.slots.get (s₁.current - 1 + 1)) _ place₁ _ gap₁
    rw [sub_one_add_one]
    exact hkeeps₁
  · show Queued line text given (s₁.consume _).giveBack s₁.lookahead (s₁.current - 1 + 1) place₁ _
    rw [sub_one_add_one]
    exact hqueued₁.congr rfl rfl rfl

/-- A token that was given back is read again. -/
theorem Fetched.next_giveBack (h : Fetched line text ahead given t s) (hnewline : t.kind ≠ .newline)
    (hambiguous : ¬ t.Ambiguous) : next operand s.giveBack = .ok (t, s) := by
  obtain ⟨before, comments, place, hconsumed, -, place', gap, -, htoken, -⟩ := h
  have hback : ({ s with consumed := s.consumed.tail } : Stream).consume t = s := by
    show ({ s with consumed := t :: s.consumed.tail } : Stream) = s
    rw [hconsumed, List.tail_cons, ← hconsumed]
  rw [← hback]
  refine next_of_readFrom ?_
  show readFrom operand (s.lookahead + 1) s.giveBack = _
  have hcurrent : s.giveBack.current + 1 = s.current := sub_one_add_one _
  have hslot : (s.giveBack.slots.get s.current).token = t := htoken
  have hdepends : t.dependsOnOperand operand = false := by
    rw [← Bool.not_eq_true]
    exact fun hdepends => hambiguous ⟨operand, hdepends⟩
  simp only [readFrom, hcurrent, token, slot, hslot, hnewline, hdepends, false_and, if_false,
    Bool.false_eq_true]
  rfl

/-- Handing out the comments that wait when one token has been looked at. -/
theorem Fetched.takeComments (h : Fetched line text 0 given t s) :
    Fetched line text 0 (given + ↑s.extents) t { s with comments := #[], unsettled := 0 } := by
  obtain ⟨before, comments, place, hconsumed, hread, place', gap, hkeeps, ht, hle, hqueued⟩ := h
  have hzero : s.lookahead = 0 := Nat.le_zero.mp hle
  rw [hzero] at hqueued
  obtain ⟨hcursor, hbalance⟩ := hqueued
  refine ⟨before, comments, place, hconsumed, hread, place', gap,
    ⟨hkeeps.leads, hkeeps.gaps, fun _ => ?_⟩, ht, hle, ?_⟩
  · show given + ↑s.extents + ↑(List.take _ ([] : List Comment.Extent)) = _
    rw [List.take_nil, hbalance]
    exact add_zero _
  · show Queued line text _ _ s.lookahead _ _ _
    rw [hzero]
    exact ⟨hcursor, hbalance ▸ add_zero _⟩

/-- A line break that is scanned in a gap is looked at. -/
theorem breaks_scanHere {n : Nat} {gap : List Comment.Extent}
    (hscan : scanHere operand s = .ok (t, s')) (hbreak : gap? s.cursor.rest = some (.lineBreak n))
    (hlookahead : s.lookahead = 0) (hwithin : s.cursor.Within line text)
    (hpast : s.cursor.pastGaps = place.pastGaps)
    (hgap : Gaps line text place.offset gap s.cursor.offset)
    (hbalance : given + ↑s.extents = passed + ↑gap) :
    Breaks line text given s'.giveBack place passed := by
  rw [scanHere_eq (scan_of_lineBreak hbreak)] at hscan
  obtain ⟨-, rfl⟩ := Prod.mk.inj (Except.ok.inj hscan)
  obtain ⟨hle, hspaces⟩ := isLineBreak_of_gap? hbreak
  have hcursor : (s.scanned (plain .newline n)).giveBack.cursor = s.cursor.advance n :=
    scanned_cursor s _
  refine ⟨congrArg (· + 1) ((scanned_lookahead s _).trans hlookahead), ?_, ?_, ?_, gap, ?_, ?_⟩
  · show ((s.scanned (plain .newline n)).slots.get
      ((s.scanned (plain .newline n)).current - 1 + 1)).token.kind = .newline
    rw [sub_one_add_one]
    exact congrArg (fun slot : Slot => slot.token.kind) (slot_scanned s (plain .newline n))
  · rw [hcursor]
    exact hwithin.advance n
  · rw [hcursor, ← hpast]
    exact (Cursor.pastGaps_of_gap? hbreak (.inr (.inl rfl))).symm
  · rw [hcursor, ← List.append_nil gap]
    exact hgap.append (hwithin.gaps_of_spaces hle (fun c hc => .inr (hspaces c hc)) (.nil _))
  · show given + ↑(s.scanned (plain .newline n)).extents = _
    rw [extents_scanned, hbalance]

theorem Breaks.consume (h : Breaks line text given s.giveBack place passed) (t : Token) :
    Breaks line text given (s.consume t).giveBack place passed :=
  ⟨h.lookahead, h.kind, h.within, h.pastGaps, h.gap⟩

/-- Scanning on while line breaks are tokens, and giving the token back, loses no comment. -/
theorem retains_readFrom {comments : List Comment.Extent}
    (hfrom : readFrom operand 0 s = .ok (t, s'))
    (hread : Read line text s.consumed.reverse comments s.cursor)
    (hbalance : given + ↑s.extents = ↑comments) :
    Retains line text 1 given (s'.consume t).giveBack := by
  have hconsumed := (readFrom_leaves hfrom).2
  rw [readFrom] at hfrom
  cases hskip : skipGaps (s.cursor.rest.length + 1) { s with lookahead := 0 } with
  | error fault => rw [hskip] at hfrom; cases hfrom
  | ok s₁ =>
      rw [hskip] at hfrom
      replace hfrom : scanHere operand { s₁ with current := s₁.current + 1 } = .ok (t, s') := hfrom
      have hlookahead : s₁.lookahead = 0 := (skipGaps_sameRing hskip).lookahead
      obtain ⟨hpast, hend⟩ := pastGaps_of_skipGaps hskip (Nat.lt_succ_self _)
      obtain ⟨hwithin, gap, hgap, hgaps⟩ := gaps_of_skipGaps hskip hread.within
      have hbalance₁ : given + ↑s₁.extents = ↑comments + ↑gap := by
        replace hgap : s₁.extents = s.extents ++ gap := hgap
        rw [hgap, ← Multiset.coe_add, ← add_assoc, hbalance]
      rcases hend with hnone | ⟨n, hbreak⟩
      · rw [Cursor.pastGaps_of_gap?_eq_none hnone] at hpast
        have hfetched := fetchedFrom_scanHere hfrom hpast.symm hgaps hlookahead hbalance₁
        exact (hfetched.consume hconsumed hread).giveBack
      · have hbreaks := breaks_scanHere hfrom hbreak hlookahead hwithin hpast hgaps hbalance₁
        refine ⟨comments, s.cursor, ?_, .inr ⟨Nat.le_refl 1, hbreaks.consume t⟩⟩
        show Read line text s'.consumed.reverse comments s.cursor
        rwa [hconsumed]

theorem Retains.newlines (h : Retains line text ahead given s) (newlines : Bool) :
    Retains line text ahead given { s with newlines } := by
  obtain ⟨comments, place, hread, ⟨hle, hqueued⟩ | ⟨hle, hbreaks⟩⟩ := h
  · exact ⟨comments, place, hread, .inl ⟨hle, hqueued.congr rfl rfl rfl⟩⟩
  · obtain ⟨hlookahead, hkind, hwithin, hpast, hgap⟩ := hbreaks
    exact ⟨comments, place, hread, .inr ⟨hle, hlookahead, hkind, hwithin, hpast, hgap⟩⟩

/-- Asking for a line break loses no comment. -/
theorem Retains.peekOnLine (h : Retains line text 1 given s)
    (hpeek : peekOnLine operand s = .ok (t, s')) : Retains line text 1 given s' := by
  obtain ⟨found, s₂, hnext, rfl, -⟩ := peekOnLine_eq_ok hpeek
  refine Retains.newlines (s := s₂.giveBack) ?_ false
  obtain ⟨comments, place, hread, ⟨hle, hqueued⟩ | ⟨-, hbreaks⟩⟩ := h
  · obtain ⟨s₁, hfrom, rfl⟩ := next_eq_ok hnext
    cases hcount : s.lookahead with
    | zero =>
        rw [hcount] at hqueued
        obtain ⟨rfl, hbalance⟩ := hqueued
        replace hfrom : readFrom operand 0 { s with newlines := true } = .ok (found, s₁) := by
          rwa [← hcount]
        exact retains_readFrom hfrom hread hbalance
    | succ n =>
        rw [hcount] at hqueued hle
        replace hfrom : readFrom operand (n + 1) { s with newlines := true } = .ok (found, s₁) := by
          rwa [← hcount]
        replace hqueued : Queued line text given { s with newlines := true } (n + 1)
            s.current place ↑comments := hqueued.congr rfl rfl rfl
        have hfetched := (fetchedFrom_queued hfrom hqueued).mono (Nat.le_of_succ_le_succ hle)
        exact (hfetched.consume (readFrom_leaves hfrom).2 hread).giveBack
  · -- The line break is still there.
    rw [next_of_newline hbreaks.lookahead hbreaks.kind] at hnext
    obtain ⟨-, rfl⟩ := Prod.mk.inj (Except.ok.inj hnext)
    refine ⟨comments, place, hread, .inr ⟨Nat.le_refl 1, rfl, ?_, hbreaks.within,
      hbreaks.pastGaps, hbreaks.gap⟩⟩
    show (s.slots.get (s.current + 1 - 1 + 1)).token.kind = .newline
    rw [sub_one_add_one]
    exact hbreaks.kind

end Stream

end ScriptMin
