import Mathlib.Data.List.Forall2
import ScriptMin.Proofs.Token.Lookahead

/-!
The token stream against a plain reader. A plain reader knows the place behind the token read
last and the places behind the tokens before it; every token is scanned anew from where the
reader stands, and giving a token back is going back one place. The stream answers all requests
like the plain reader does, in spite of its ring of four slots and of the tokens that were
looked at in the other operand mode, as long as what is given back is still in the ring: a token
that is read makes room for giving back one more, up to four, and a token that is given back
takes that room.
-/

namespace ScriptMin

open Text Lexeme

/-! ### Requests -/

/-- What can be asked of a reader of tokens. -/
inductive Request where
  | next (operand : Bool)
  | peek (operand : Bool)
  | peekSecond (operand : Bool)
  | accept (operand : Bool) (sign : Punctuator)
  | acceptWord (operand : Bool) (word : Keyword)
  | unread
  deriving DecidableEq, Repr

/-- A request, or a jump between states of the reader. -/
inductive Call where
  | ask (request : Request)
  | save
  /-- Goes back to the state that was saved in the given turn. -/
  | rewind (index : Nat)
  deriving DecidableEq, Repr

inductive Answer where
  | token (token : Token)
  | found (found : Bool)
  | nothing
  deriving DecidableEq, Repr

/-- A reader of tokens with the states that were saved. -/
structure Session (σ : Type) where
  state : σ
  saved : List σ := []

namespace Session

variable {σ : Type}

/-- Carries out a call, given how requests are answered and how a saved state is restored. -/
def call (answer : Request → StateT σ (Except Fault) Answer) (restore : σ → σ → σ) :
    Call → StateT (Session σ) (Except Fault) Answer
  | .ask request => fun s => do
    let (a, state) ← answer request s.state
    return (a, { s with state })
  | .save => fun s => return (.nothing, { s with saved := s.saved ++ [s.state] })
  | .rewind index => fun s =>
    match s.saved[index]? with
    | some old => return (.nothing, { s with state := restore old s.state })
    | none => return (.nothing, s)

/-- Whether a test holds of every one of several calls and of the state it is made in, up to the
first call that fails. -/
def always (answer : Request → StateT σ (Except Fault) Answer) (restore : σ → σ → σ)
    (test : Call → σ → Bool) : List Call → Session σ → Bool
  | [], _ => true
  | c :: rest, s =>
    test c s.state &&
      match call answer restore c s with
      | .ok (_, s') => always answer restore test rest s'
      | .error _ => true

end Session

/-! ### The stream -/

namespace Stream

def answer : Request → Reading Answer
  | .next operand => .token <$> next operand
  | .peek operand => .token <$> peek operand
  | .peekSecond operand => .token <$> peekSecond operand
  | .accept operand sign => .found <$> accept operand sign
  | .acceptWord operand word => .found <$> acceptWord operand word
  | .unread => (fun _ => .nothing) <$> unread

def answers (line : Nat) (text : List Char) (calls : List Call) : Except Fault (List Answer) :=
  (calls.mapM (Session.call answer rewind)).run' { state := ofChars line text }

/-- A stream that has been put at a place and knows nothing of what is before it. -/
def startingAt (place : Cursor) : Stream := { ofChars 0 [] with cursor := place }

end Stream

/-! ### The plain reader -/

namespace Cursor

/-- The place behind the blanks, line breaks and comments at a place. -/
def pastGaps (place : Cursor) : Except Fault Cursor :=
  (Stream.skipGaps (place.rest.length + 1) (.startingAt place)).map Stream.cursor

def tokenHere (operand : Bool) (place : Cursor) : Except Fault (Token × Cursor) :=
  (Stream.scanHere operand (.startingAt place)).map fun (token, s) => (token, s.cursor)

/-- The next token from a place on, and the place behind it. -/
def readToken (operand : Bool) (place : Cursor) : Except Fault (Token × Cursor) :=
  place.pastGaps.bind (tokenHere operand)

end Cursor

structure Reader where
  /-- The place behind the token read last. -/
  place : Cursor
  /-- The places behind the tokens before it, the nearest first, and the start of the text. -/
  before : List Cursor := []
  /-- How many tokens there is room for to give back. No answer depends on it. -/
  room : Nat := 0

namespace Reader

def next (operand : Bool) : StateT Reader (Except Fault) Token := fun r => do
  let (token, place) ← r.place.readToken operand
  return (token, { place, before := r.place :: r.before, room := min (r.room + 1) 4 })

def giveBack (r : Reader) : Reader :=
  { place := r.before.headD r.place, before := r.before.tail, room := r.room - 1 }

def unread : StateT Reader (Except Fault) Unit := modify giveBack

def peek (operand : Bool) : StateT Reader (Except Fault) Token := do
  let token ← next operand
  unread
  return token

def peekSecond (operand : Bool) : StateT Reader (Except Fault) Token := do
  let _ ← next operand
  let token ← next false
  unread
  unread
  return token

def nextIf (operand : Bool) (test : Token → Bool) : StateT Reader (Except Fault) Bool := do
  if test (← next operand) then return true
  unread
  return false

def answer : Request → StateT Reader (Except Fault) Answer
  | .next operand => .token <$> next operand
  | .peek operand => .token <$> peek operand
  | .peekSecond operand => .token <$> peekSecond operand
  | .accept operand sign => .found <$> nextIf operand (·.isPunctuator sign)
  | .acceptWord operand word => .found <$> nextIf operand (·.isKeyword word)
  | .unread => (fun _ => .nothing) <$> unread

def ofChars (line : Nat) (text : List Char) : Reader := { place := .start line text }

/-- The answers to calls on the plain reader of a text. -/
def answers (line : Nat) (text : List Char) (calls : List Call) : Except Fault (List Answer) :=
  (calls.mapM (Session.call answer fun old _ => old)).run' { state := ofChars line text }

/-- Whether there is room whenever one of several calls gives a token back. -/
def hasRoomFrom : List Call → Session Reader → Bool :=
  Session.always answer (fun old _ => old) fun call r => call != .ask .unread || 0 < r.room

/-- Whether there is room whenever one of several calls on the reader of a text gives a token
back. -/
def hasRoom (line : Nat) (text : List Char) (calls : List Call) : Bool :=
  hasRoomFrom calls { state := ofChars line text }

end Reader

/-! ### Scanning depends on the place only -/

namespace Stream

/-- Two streams have the same tokens in the same slots. -/
structure SameRing (s s' : Stream) : Prop where
  slots : s'.slots = s.slots
  current : s'.current = s.current
  lookahead : s'.lookahead = s.lookahead
  newlines : s'.newlines = s.newlines
  consumed : s'.consumed = s.consumed

/-- Passing over gaps leads streams at the same place to the same place. -/
theorem map_cursor_skipGaps {s s' : Stream} (fuel : Nat) (hplace : s'.cursor = s.cursor)
    (hnewlines : s'.newlines = s.newlines) :
    (skipGaps fuel s').map cursor = (skipGaps fuel s).map cursor := by
  induction fuel generalizing s s' with
  | zero => exact congrArg Except.ok hplace
  | succ fuel ih =>
      unfold skipGaps
      rw [hplace]
      split
      · exact congrArg Except.ok hplace
      · exact ih rfl hnewlines
      · rw [hnewlines]
        split
        · exact congrArg Except.ok hplace
        · exact ih rfl rfl
      · exact ih (by simp only [collect, hplace]) hnewlines
      · rfl

/-- Passing over gaps leaves the ring alone. -/
theorem skipGaps_sameRing {s s' : Stream} {fuel : Nat} (h : skipGaps fuel s = .ok s') :
    SameRing s s' := by
  induction fuel generalizing s with
  | zero =>
      obtain rfl : s = s' := Except.ok.inj h
      exact ⟨rfl, rfl, rfl, rfl, rfl⟩
  | succ fuel ih =>
      unfold skipGaps at h
      split at h
      · obtain rfl : s = s' := Except.ok.inj h
        exact ⟨rfl, rfl, rfl, rfl, rfl⟩
      · obtain ⟨hslots, hcurrent, hlookahead, hnewlines, hconsumed⟩ := ih h
        exact ⟨hslots, hcurrent, hlookahead, hnewlines, hconsumed⟩
      · split at h
        · obtain rfl : s = s' := Except.ok.inj h
          exact ⟨rfl, rfl, rfl, rfl, rfl⟩
        · obtain ⟨hslots, hcurrent, hlookahead, hnewlines, hconsumed⟩ := ih h
          exact ⟨hslots, hcurrent, hlookahead, hnewlines, hconsumed⟩
      · obtain ⟨hslots, hcurrent, hlookahead, hnewlines, hconsumed⟩ := ih h
        exact ⟨hslots, hcurrent, hlookahead, hnewlines, hconsumed⟩
      · cases h

end Stream

/-! ### Gaps -/

namespace Lexeme

theorem le_blockCommentEnd {text : List Char} {n length : Nat}
    (h : blockCommentEnd n text = some length) : n ≤ length := by
  fun_induction blockCommentEnd n text with
  | case1 => cases h; omega
  | case2 _ _ _ _ ih => exact Nat.le_of_succ_le (ih h)
  | case3 => cases h

/-- Every gap is shorter than the text that starts with it. -/
theorem gap?_progress {text : List Char} {gap : Gap} (h : gap? text = some gap) :
    text ≠ [] ∧ ∀ length, gap = .lineBreak length ∨ gap = .comment length → 0 < length := by
  cases text with
  | nil => cases h
  | cons c rest =>
      refine ⟨by simp, ?_⟩
      rintro length hgap
      simp only [gap?] at h
      split at h
      · cases h
        simp at hgap
      · split at h
        · cases h
          simp only [Gap.lineBreak.injEq, reduceCtorEq, or_false] at hgap
          subst hgap
          split <;> decide
        · split at h
          case isTrue hslash =>
              cases h
              simp only [Gap.comment.injEq, reduceCtorEq, false_or] at hgap
              subst hgap
              rw [hslash.1, List.takeWhile_cons_of_pos (by decide)]
              exact Nat.succ_pos _
          case isFalse =>
              split at h
              · split at h
                case h_1 hend =>
                    cases h
                    simp only [Gap.comment.injEq, reduceCtorEq, false_or] at hgap
                    subst hgap
                    exact Nat.lt_of_lt_of_le (by decide) (le_blockCommentEnd hend)
                case h_2 =>
                    cases h
                    simp at hgap
              · cases h

/-- A slash starts a regular expression or a punctuator, depending on the operand mode. -/
theorem scan_slash (operand : Bool) (rest : List Char) :
    scan operand ('/' :: rest) =
      if operand then regExp ('/' :: rest)
      else match Punctuator.scan? ('/' :: rest) with
        | some s => .ok ⟨.punctuator s.sign, s.op, s.chars.length⟩
        | none => .error (.illegalToken '/') := by
  cases operand <;> rfl

theorem kind_regExp {text : List Char} {l : Lexeme} (h : regExp text = .ok l) :
    ∃ source, l.kind = .regExp source := by
  unfold regExp at h
  split at h
  · cases h
  · cases h
    exact ⟨_, rfl⟩

theorem slash_spelling : ∀ s ∈ Punctuator.spellings, s.chars.head? = some '/' →
    s.sign = .slash ∨ s.sign = .assign ∧ s.op = some .slash := by decide +kernel

/-- The punctuators that a slash can start depend on the operand mode. -/
theorem scan?_slash {rest : List Char} {s : Punctuator.Spelling}
    (h : Punctuator.scan? ('/' :: rest) = some s) :
    s.sign = .slash ∨ s.sign = .assign ∧ s.op = some .slash := by
  have hmem := List.mem_of_find?_eq_some h
  refine slash_spelling s hmem ?_
  have hpre := List.find?_some h
  obtain ⟨c, hc, -⟩ := Punctuator.head_spelling hmem
  obtain ⟨tail, htail⟩ := List.head?_eq_some_iff.mp hc
  rw [htail, List.isPrefixOf_cons_cons, Bool.and_eq_true, beq_iff_eq] at hpre
  rw [hc, hpre.1]

/-- A token that does not depend on the operand mode is scanned in both. -/
theorem scan_of_not_dependsOnOperand {operand operand' : Bool} {text : List Char} {l : Lexeme}
    {t : Token} (h : scan operand' text = .ok l) (hkind : t.kind = l.kind)
    (hop : t.assignOp = l.assignOp) (hdepends : t.dependsOnOperand operand = false) :
    scan operand text = .ok l := by
  cases text with
  | nil => exact h
  | cons c rest =>
      by_cases hslash : c = '/'
      · subst hslash
        rw [scan_slash] at h ⊢
        rw [Token.dependsOnOperand, hkind, hop] at hdepends
        cases operand' with
        | true =>
            obtain ⟨source, hsource⟩ := kind_regExp h
            rw [hsource] at hdepends
            simp only [Bool.not_eq_false'] at hdepends
            rw [hdepends]
            exact h
        | false =>
            simp only [Bool.false_eq_true, if_false] at h
            split at h
            case h_2 => cases h
            case h_1 s hs =>
                cases h
                cases operand with
                | false => simp
                | true => rcases scan?_slash hs with hsign | ⟨hsign, hop⟩ <;> simp_all
      · simp only [scan, hslash, false_and, if_false] at h ⊢
        exact h

end Lexeme

namespace Stream

variable {s s' : Stream} {operand : Bool}

theorem gap?_of_skipGaps {fuel : Nat} (h : skipGaps fuel s = .ok s')
    (hnewlines : s.newlines = false) (hfuel : s.cursor.rest.length < fuel) :
    gap? s'.cursor.rest = none := by
  induction fuel generalizing s with
  | zero => omega
  | succ fuel ih =>
      -- Every gap leaves less of the text.
      have hshorter : ∀ n, 0 < n → s.cursor.rest ≠ [] →
          (s.cursor.advance n).rest.length < fuel := by
        intro n hpos hne
        have := List.length_pos_iff.mpr hne
        rw [Cursor.advance_rest, List.length_drop]
        omega
      unfold skipGaps at h
      split at h
      case h_1 hgap =>
          obtain rfl : s = s' := Except.ok.inj h
          exact hgap
      case h_2 hgap => exact ih h hnewlines (hshorter 1 Nat.one_pos (gap?_progress hgap).1)
      case h_3 hgap =>
          obtain ⟨hne, hpos⟩ := gap?_progress hgap
          rw [if_neg (by simp [hnewlines])] at h
          exact ih h hnewlines (hshorter _ (hpos _ (.inl rfl)) hne)
      case h_4 hgap =>
          obtain ⟨hne, hpos⟩ := gap?_progress hgap
          exact ih h hnewlines (hshorter _ (hpos _ (.inr rfl)) hne)
      case h_5 => cases h

/-! ### Scanning depends on the place only -/

/-- Scanning gives a stream the token that stands at its place. -/
theorem scanHere_tokenHere (operand : Bool) (s : Stream) :
    (∃ fault, scanHere operand s = .error fault ∧ s.cursor.tokenHere operand = .error fault) ∨
      ∃ l, Lexeme.scan operand s.cursor.rest = .ok l ∧
        scanHere operand s = .ok (s.tokenOf l, s.scanned l) ∧
        s.cursor.tokenHere operand = .ok (s.tokenOf l, s.cursor.advance l.length) := by
  cases hscan : Lexeme.scan operand s.cursor.rest with
  | error cause =>
      refine .inl ⟨⟨.lexical cause, s.cursor.line⟩, by simp only [scanHere, hscan], ?_⟩
      have hplain : Lexeme.scan operand (startingAt s.cursor).cursor.rest = .error cause := hscan
      simp only [Cursor.tokenHere, scanHere, hplain]
      rfl
  | ok l =>
      refine .inr ⟨l, rfl, ?_, ?_⟩
      · rw [scanHere_eq hscan, token, slot_scanned]
        rfl
      · rw [Cursor.tokenHere, scanHere_eq (s := startingAt s.cursor) hscan, token, slot_scanned]
        show Except.ok (_, ((startingAt s.cursor).pass l).cursor) = _
        rw [pass_cursor]
        rfl

end Stream

namespace Cursor

theorem gap?_of_pastGaps {place place' : Cursor} (h : place.pastGaps = .ok place') :
    gap? place'.rest = none := by
  unfold pastGaps at h
  cases hskip : Stream.skipGaps (place.rest.length + 1) (.startingAt place) with
  | error fault =>
      rw [hskip] at h
      cases h
  | ok s =>
      rw [hskip] at h
      obtain rfl : s.cursor = place' := Except.ok.inj h
      exact Stream.gap?_of_skipGaps hskip rfl (Nat.lt_succ_self _)

end Cursor

/-! ### Slots and places -/

/-- A slot holds the token that leads from one place to another one, in some operand mode. -/
structure Slot.Leads (slot : Slot) (place place' : Cursor) : Prop where
  gaps : place.pastGaps = .ok slot.place
  scans : ∃ operand, slot.place.tokenHere operand = .ok (slot.token, place')

namespace Slot.Leads

variable {slot : Slot} {place place' : Cursor} {operand : Bool}

theorem exists_scan (h : slot.Leads place place') :
    ∃ operand l, Lexeme.scan operand slot.place.rest = .ok l ∧ slot.token.kind = l.kind ∧
      slot.token.assignOp = l.assignOp := by
  obtain ⟨operand, htoken⟩ := h.scans
  obtain ⟨_, -, herror⟩ | ⟨l, hscan, -, hok⟩ :=
    Stream.scanHere_tokenHere operand (.startingAt slot.place)
  · exact absurd (htoken.symm.trans herror) (by simp)
  · have heq := Except.ok.inj (htoken.symm.trans hok)
    have htoken' := congrArg Prod.fst heq
    exact ⟨operand, l, hscan, congrArg Token.kind htoken', congrArg Token.assignOp htoken'⟩

theorem kind_ne_newline (h : slot.Leads place place') : slot.token.kind ≠ .newline := by
  obtain ⟨operand, l, hscan, hkind, -⟩ := h.exists_scan
  rw [hkind]
  refine scan_kind_ne_newline hscan fun c hc => ?_
  obtain ⟨tail, htail⟩ := List.head?_eq_some_iff.mp hc
  cases hbreak : isLineBreak c with
  | false => rfl
  | true =>
      have hgap := Cursor.gap?_of_pastGaps h.gaps
      rw [htail, gap?, hbreak] at hgap
      split at hgap <;> cases hgap

/-- A token that does not depend on the operand mode is the one read from the place before. -/
theorem readToken_eq (h : slot.Leads place place')
    (hdepends : slot.token.dependsOnOperand operand = false) :
    place.readToken operand = .ok (slot.token, place') := by
  obtain ⟨operand', htoken⟩ := h.scans
  obtain ⟨_, -, herror⟩ | ⟨l, hscan, -, hok⟩ :=
    Stream.scanHere_tokenHere operand' (.startingAt slot.place)
  · exact absurd (htoken.symm.trans herror) (by simp)
  have heq := Except.ok.inj (htoken.symm.trans hok)
  have htoken' := congrArg Prod.fst heq
  have hscan' := scan_of_not_dependsOnOperand hscan (congrArg Token.kind htoken')
    (congrArg Token.assignOp htoken') hdepends
  rw [Cursor.readToken, h.gaps]
  show slot.place.tokenHere operand = _
  rw [heq]
  obtain ⟨_, herror, -⟩ | ⟨l', hl', -, hok'⟩ :=
    Stream.scanHere_tokenHere operand (.startingAt slot.place)
  · rw [Stream.scanHere_eq (s := .startingAt slot.place) hscan'] at herror
    cases herror
  · obtain rfl : l = l' := Except.ok.inj (hscan'.symm.trans hl')
    exact hok'

end Slot.Leads

namespace Stream

variable {s s' : Stream} {operand : Bool}

/-- The tokens that were given back lead from a place to the cursor. -/
def Pending (slots : Vector Slot 4) (cursor : Cursor) : Nat → Fin 4 → Cursor → Prop
  | 0, _, place => cursor = place
  | n + 1, i, place =>
    ∃ place', (slots.get (i + 1)).Leads place place' ∧ Pending slots cursor n (i + 1) place'

/-- The given number of tokens up to a slot lead from earlier places to a place. -/
def Kept (slots : Vector Slot 4) : Nat → Fin 4 → Cursor → List Cursor → Prop
  | 0, _, _, _ => True
  | n + 1, i, place, before =>
    ∃ place' before', before = place' :: before' ∧ (slots.get i).Leads place' place ∧
      Kept slots n (i - 1) place' before'

/-- A stream is where a plain reader is: the slots behind the current one hold the tokens that
were given back, and the slots up to it the ones there is room for to give back. -/
structure Refines (s : Stream) (r : Reader) : Prop where
  newlines : s.newlines = false
  pending : Pending s.slots s.cursor s.lookahead s.current r.place
  kept : Kept s.slots r.room s.current r.place r.before
  room_le : r.room + s.lookahead ≤ 4

theorem refines_ofChars (line : Nat) (text : List Char) :
    Refines (ofChars line text) (.ofChars line text) :=
  ⟨rfl, rfl, trivial, Nat.zero_le 4⟩

theorem Kept.mono {slots : Vector Slot 4} {n m : Nat} (hle : m ≤ n) {i : Fin 4} {place : Cursor}
    {before : List Cursor} (h : Kept slots n i place before) : Kept slots m i place before := by
  induction m generalizing n i place before with
  | zero => trivial
  | succ m ih =>
      obtain ⟨k, rfl⟩ := Nat.exists_eq_add_of_le' hle
      obtain ⟨place', before', hbefore, hleads, hrest⟩ := h
      exact ⟨place', before', hbefore, hleads, ih (Nat.le_add_left m k) hrest⟩

/-- Up to three tokens are kept when the slot behind them is filled. -/
theorem Kept.set {slots : Vector Slot 4} {n d : Nat} (hroom : n + d ≤ 3) {i : Fin 4}
    {place : Cursor} {before : List Cursor} (slot : Slot)
    (h : Kept slots n (i - 1 - Fin.ofNat 4 d) place before) :
    Kept (slots.set i slot i.isLt) n (i - 1 - Fin.ofNat 4 d) place before := by
  induction n generalizing d place before with
  | zero => trivial
  | succ n ih =>
      obtain ⟨place', before', hbefore, hleads, hrest⟩ := h
      have hne : ∀ d < 3, ∀ i : Fin 4, i ≠ i - 1 - Fin.ofNat 4 d := by decide
      have hstep : ∀ d < 3, ∀ i : Fin 4,
          i - 1 - Fin.ofNat 4 d - 1 = i - 1 - Fin.ofNat 4 (d + 1) := by decide
      rw [hstep d (by omega) i] at hrest
      refine ⟨place', before', hbefore, ?_, ?_⟩
      · rw [get_set_ne _ (hne d (by omega) i)]
        exact hleads
      · rw [hstep d (by omega) i]
        exact ih (by omega) hrest

theorem Kept.fill {slots : Vector Slot 4} {n : Nat} (hroom : n ≤ 3) {i : Fin 4} {place : Cursor}
    {before : List Cursor} (slot : Slot) (h : Kept slots n (i - 1) place before) :
    Kept (slots.set i slot i.isLt) n (i - 1) place before := by
  have hzero : ∀ i : Fin 4, i - 1 - Fin.ofNat 4 0 = i - 1 := by decide
  rw [← hzero i] at h ⊢
  exact Kept.set (d := 0) hroom slot h

@[simp] theorem settle_newlines (s : Stream) (line : Nat) :
    (s.settle line).newlines = s.newlines := by
  unfold settle
  split <;> rfl

@[simp] theorem pass_newlines (s : Stream) (l : Lexeme) : (s.pass l).newlines = s.newlines := by
  simp only [pass]
  split
  · exact settle_newlines _ _
  · rfl

@[simp] theorem settle_consumed (s : Stream) (line : Nat) :
    (s.settle line).consumed = s.consumed := by
  unfold settle
  split <;> rfl

@[simp] theorem pass_consumed (s : Stream) (l : Lexeme) : (s.pass l).consumed = s.consumed := by
  simp only [pass]
  split
  · exact settle_consumed _ _
  · rfl

theorem scanned_slots (s : Stream) (l : Lexeme) :
    (s.scanned l).slots = s.slots.set s.current (s.slotOf l) s.current.isLt := by
  simp only [scanned, pass_slots, pass_current]

theorem scanned_current (s : Stream) (l : Lexeme) : (s.scanned l).current = s.current :=
  pass_current s l

theorem scanned_cursor (s : Stream) (l : Lexeme) :
    (s.scanned l).cursor = s.cursor.advance l.length :=
  pass_cursor s l

theorem scanned_lookahead (s : Stream) (l : Lexeme) : (s.scanned l).lookahead = s.lookahead :=
  pass_lookahead s l

/-! ### One token -/

/-- Outcomes of a stream and of a plain reader that agree. -/
inductive Agree {α σ ρ : Type} (R : σ → ρ → Prop) :
    Except Fault (α × σ) → Except Fault (α × ρ) → Prop
  | ok {a : α} {s : σ} {r : ρ} : R s r → Agree R (.ok (a, s)) (.ok (a, r))
  | error {fault : Fault} : Agree R (.error fault) (.error fault)

/-- A token from the ring or from the text is consumed. -/
theorem Agree.next {ρ : Type} {R R' : Stream → ρ → Prop} {x : Except Fault (Token × ρ)}
    (h : Agree R (readFrom operand s.lookahead s) x)
    (hR : ∀ t s r, R s r → R' (s.consume t) r) : Agree R' (Stream.next operand s) x := by
  cases hread : readFrom operand s.lookahead s with
  | error fault =>
      rw [hread] at h
      cases h
      rw [next_of_readFrom_error hread]
      exact .error
  | ok result =>
      rw [hread] at h
      cases h with
      | ok hs =>
          rw [next_of_readFrom hread]
          exact .ok (hR _ _ _ hs)

/-- A token that is scanned at the end of a gap is the next one of the reader. -/
theorem agree_scanHere {r : Reader} (hgaps : r.place.pastGaps = .ok s.cursor)
    (hnewlines : s.newlines = false) (hlookahead : s.lookahead = 0)
    (hkept : Kept s.slots (min r.room 3) (s.current - 1) r.place r.before) :
    Agree Refines (scanHere operand s) (Reader.next operand r) := by
  have hnext : Reader.next operand r = (s.cursor.tokenHere operand).bind fun (token, place) =>
      .ok (token, { place, before := r.place :: r.before, room := min (r.room + 1) 4 }) := by
    simp only [Reader.next, Cursor.readToken, hgaps]
    rfl
  rw [hnext]
  obtain ⟨fault, hstream, hplain⟩ | ⟨l, hscan, hstream, hplain⟩ := scanHere_tokenHere operand s
  · rw [hstream, hplain]
    exact .error
  · rw [hstream, hplain]
    have hroom : min (r.room + 1) 4 = min r.room 3 + 1 := by omega
    refine .ok ⟨(pass_newlines s l).trans hnewlines, ?_, ?_, ?_⟩
    · rw [scanned_lookahead, hlookahead]
      exact scanned_cursor s l
    · rw [scanned_slots, scanned_current, hroom]
      refine ⟨r.place, r.before, rfl, ?_, hkept.fill (Nat.min_le_right _ _) _⟩
      rw [get_set_self]
      exact ⟨hgaps, operand, hplain⟩
    · rw [scanned_lookahead, hlookahead]
      exact Nat.min_le_right _ _

theorem sub_one_add_one : ∀ i : Fin 4, i - 1 + 1 = i := by decide

theorem add_one_sub_one : ∀ i : Fin 4, i + 1 - 1 = i := by decide

/-- A token from the ring or from the text is the next one of the reader. -/
theorem Refines.readFrom {r : Reader} (h : Refines s r) (operand : Bool) :
    Agree Refines (readFrom operand s.lookahead s) (Reader.next operand r) := by
  obtain ⟨place, before, room⟩ := r
  obtain ⟨hnewlines, hpending, hkept, hroom⟩ := h
  cases hcount : s.lookahead with
  | zero =>
      rw [hcount] at hpending
      obtain rfl : s.cursor = place := hpending
      have hgaps : s.cursor.pastGaps = _ :=
        (map_cursor_skipGaps (s := startingAt s.cursor) (s.cursor.rest.length + 1)
          (rfl : Stream.cursor { s with lookahead := 0 } = s.cursor) hnewlines).symm
      simp only [Stream.readFrom]
      cases hskip : skipGaps (s.cursor.rest.length + 1) { s with lookahead := 0 } with
      | error fault =>
          rw [hskip] at hgaps
          simp only [Reader.next, Cursor.readToken, hgaps]
          exact .error
      | ok s' =>
          rw [hskip] at hgaps
          obtain ⟨hslots, hcurrent, hlookahead, hnewlines', -⟩ := skipGaps_sameRing hskip
          refine agree_scanHere (s := { s' with current := s'.current + 1 }) hgaps
            (hnewlines'.trans hnewlines) hlookahead ?_
          show Kept s'.slots _ (s'.current + 1 - 1) _ _
          rw [hslots, add_one_sub_one, hcurrent]
          exact hkept.mono (Nat.min_le_left _ _)
  | succ n =>
      rw [hcount] at hpending hroom
      obtain ⟨place', hleads, hrest⟩ := hpending
      have hnewline : ¬ ((s.slots.get (s.current + 1)).token.kind = .newline ∧
          ¬ s.newlines = true) := fun h => hleads.kind_ne_newline h.1
      simp only [Stream.readFrom, token, slot, hnewline, if_false]
      by_cases hdepends : (s.slots.get (s.current + 1)).token.dependsOnOperand operand = true
      · simp only [hdepends, if_true]
        refine agree_scanHere hleads.gaps hnewlines rfl ?_
        show Kept s.slots _ (s.current + 1 - 1) _ _
        rw [add_one_sub_one]
        exact hkept.mono (Nat.min_le_left _ _)
      · simp only [hdepends, if_false, Bool.false_eq_true]
        simp only [Reader.next, hleads.readToken_eq (Bool.eq_false_of_not_eq_true hdepends)]
        dsimp only at hroom
        refine .ok ⟨hnewlines, hrest, ?_, ?_⟩
        · show Kept s.slots (min (room + 1) 4) (s.current + 1) place' _
          rw [Nat.min_eq_left (by omega)]
          refine ⟨place, before, rfl, hleads, ?_⟩
          rw [add_one_sub_one]
          exact hkept
        · show min (room + 1) 4 + n ≤ 4
          omega

/-- Reading a token gives a stream and a plain reader the same one. -/
theorem Refines.next {r : Reader} (h : Refines s r) (operand : Bool) :
    Agree Refines (Stream.next operand s) (Reader.next operand r) :=
  (h.readFrom operand).next fun _ _ _ hR => ⟨hR.newlines, hR.pending, hR.kept, hR.room_le⟩

/-- A token that there is room for is given back. -/
theorem Refines.giveBack {r : Reader} (h : Refines s r) (hroom : 0 < r.room) :
    Refines s.giveBack r.giveBack := by
  obtain ⟨hnewlines, hpending, hkept, hle⟩ := h
  obtain ⟨n, hn⟩ := Nat.exists_eq_succ_of_ne_zero hroom.ne'
  rw [hn] at hkept hle
  obtain ⟨place, before, hbefore, hleads, hrest⟩ := hkept
  have hback : r.giveBack = { place, before, room := n } := by
    rw [Reader.giveBack, hbefore, hn]
    rfl
  rw [hback]
  refine ⟨hnewlines, ⟨r.place, ?_, ?_⟩, hrest, ?_⟩
  · show (s.slots.get (s.current - 1 + 1)).Leads place r.place
    rw [sub_one_add_one]
    exact hleads
  · show Pending s.slots s.cursor s.lookahead (s.current - 1 + 1) r.place
    rw [sub_one_add_one]
    exact hpending
  · show n + (s.lookahead + 1) ≤ 4
    omega

theorem Refines.rewind {r : Reader} (h : Refines s r) (s' : Stream) : Refines (rewind s s') r :=
  ⟨h.newlines, h.pending, h.kept, h.room_le⟩

/-! ### Whole runs -/

namespace Agree

variable {α β σ ρ σ' ρ' : Type} {R : σ → ρ → Prop} {R' : σ' → ρ' → Prop}

theorem bind {x : Except Fault (α × σ)} {y : Except Fault (α × ρ)}
    {f : α × σ → Except Fault (β × σ')} {g : α × ρ → Except Fault (β × ρ')} (h : Agree R x y)
    (hf : ∀ a s r, R s r → Agree R' (f (a, s)) (g (a, r))) : Agree R' (x >>= f) (y >>= g) := by
  cases h with
  | ok hR => exact hf _ _ _ hR
  | error => exact .error

theorem map {x : Except Fault (α × σ)} {y : Except Fault (α × ρ)} (h : Agree R x y) (f : α → β) :
    Agree R (x >>= fun p => .ok (f p.1, p.2)) (y >>= fun p => .ok (f p.1, p.2)) :=
  h.bind fun _ _ _ hR => .ok hR

theorem mono {P : σ → ρ → Prop} {x : Except Fault (α × σ)} {y : Except Fault (α × ρ)}
    (h : Agree R x y) (hP : ∀ a s r, y = .ok (a, r) → R s r → P s r) : Agree P x y := by
  cases h with
  | ok hR => exact .ok (hP _ _ _ rfl hR)
  | error => exact .error

theorem fst_eq {x : Except Fault (α × σ)} {y : Except Fault (α × ρ)} (h : Agree R x y) :
    Prod.fst <$> x = Prod.fst <$> y := by
  cases h <;> rfl

end Agree

variable {r : Reader}

/-- Reading a token makes room for giving it back. -/
theorem Refines.next_room (h : Refines s r) (operand : Bool) :
    Agree (fun s' r' => Refines s' r' ∧ r'.room = min (r.room + 1) 4) (Stream.next operand s)
      (Reader.next operand r) := by
  refine (h.next operand).mono fun token s' r' hnext hR => ⟨hR, ?_⟩
  unfold Reader.next at hnext
  cases hread : r.place.readToken operand with
  | error fault =>
      rw [hread] at hnext
      cases hnext
  | ok found =>
      rw [hread] at hnext
      cases hnext
      rfl

theorem Refines.peek (h : Refines s r) (operand : Bool) :
    Agree Refines (Stream.peek operand s) (Reader.peek operand r) := by
  refine (h.next_room operand).bind ?_
  rintro token s' r' ⟨hR, hroom⟩
  exact .ok (hR.giveBack (by omega))

theorem Refines.peekSecond (h : Refines s r) (operand : Bool) :
    Agree Refines (Stream.peekSecond operand s) (Reader.peekSecond operand r) := by
  refine (h.next_room operand).bind ?_
  rintro first s₁ r₁ ⟨h₁, hroom₁⟩
  refine (h₁.next_room false).bind ?_
  rintro second s₂ r₂ ⟨h₂, hroom₂⟩
  have hroom : r₂.giveBack.room = r₂.room - 1 := rfl
  exact .ok ((h₂.giveBack (by omega)).giveBack (by omega))

theorem Refines.nextIf (h : Refines s r) (operand : Bool) (test : Token → Bool) :
    Agree Refines (Stream.nextIf operand test s) (Reader.nextIf operand test r) := by
  refine (h.next_room operand).bind ?_
  rintro token s' r' ⟨hR, hroom⟩
  cases htest : test token with
  | true =>
      simp only [htest, if_true]
      exact .ok hR
  | false =>
      simp only [htest, if_false, Bool.false_eq_true]
      exact .ok (hR.giveBack (by omega))

/-- A request is answered alike, if there is room for what it gives back. -/
theorem Refines.answer (h : Refines s r) {request : Request}
    (hroom : request = .unread → 0 < r.room) :
    Agree Refines (Stream.answer request s) (Reader.answer request r) := by
  cases request with
  | next operand => exact (h.next operand).map Answer.token
  | peek operand => exact (h.peek operand).map Answer.token
  | peekSecond operand => exact (h.peekSecond operand).map Answer.token
  | accept operand sign => exact (h.nextIf operand (·.isPunctuator sign)).map Answer.found
  | acceptWord operand word => exact (h.nextIf operand (·.isKeyword word)).map Answer.found
  | unread => exact .ok (h.giveBack (hroom rfl))

/-- The states of two sessions, and the states that were saved in them, belong together. -/
structure RefinesSession (s : Session Stream) (r : Session Reader) : Prop where
  state : Refines s.state r.state
  saved : List.Forall₂ Refines s.saved r.saved

theorem RefinesSession.call {s : Session Stream} {r : Session Reader} (h : RefinesSession s r)
    {call : Call} (hroom : call = .ask .unread → 0 < r.state.room) :
    Agree RefinesSession (Session.call Stream.answer Stream.rewind call s)
      (Session.call Reader.answer (fun old _ => old) call r) := by
  cases call with
  | ask request =>
      refine (h.state.answer fun hrequest => hroom (by rw [hrequest])).bind ?_
      exact fun a state state' hstate => .ok ⟨hstate, h.saved⟩
  | save => exact .ok ⟨h.state, List.rel_append h.saved (.cons h.state .nil)⟩
  | rewind index =>
      have hlength := h.saved.length_eq
      by_cases hindex : index < s.saved.length
      · have hold := h.saved.get hindex (hlength ▸ hindex)
        simp only [Session.call, List.getElem?_eq_getElem hindex,
          List.getElem?_eq_getElem (hlength ▸ hindex : index < r.saved.length)]
        exact .ok ⟨Refines.rewind hold _, h.saved⟩
      · simp only [Session.call, List.getElem?_eq_none (Nat.le_of_not_lt hindex),
          List.getElem?_eq_none (hlength ▸ Nat.le_of_not_lt hindex : r.saved.length ≤ index)]
        exact .ok h

/-- Calls one after the other are answered alike. -/
theorem RefinesSession.mapM {calls : List Call} {s : Session Stream} {r : Session Reader}
    (h : RefinesSession s r) (hroom : Reader.hasRoomFrom calls r) :
    Agree RefinesSession ((calls.mapM (Session.call Stream.answer Stream.rewind)).run s)
      ((calls.mapM (Session.call Reader.answer fun old _ => old)).run r) := by
  induction calls generalizing s r with
  | nil => exact .ok h
  | cons call rest ih =>
      simp only [Reader.hasRoomFrom, Session.always, Bool.and_eq_true, Bool.or_eq_true,
        bne_iff_ne, ne_eq, decide_eq_true_eq] at hroom
      obtain ⟨hcall, hrest⟩ := hroom
      rw [List.mapM_cons, List.mapM_cons, StateT.run_bind, StateT.run_bind]
      have hfirst : Agree (fun s' r' => RefinesSession s' r' ∧ Reader.hasRoomFrom rest r')
          (Session.call Stream.answer Stream.rewind call s)
          (Session.call Reader.answer (fun old _ => old) call r) := by
        refine (h.call fun heq => hcall.resolve_left (absurd heq)).mono fun a s' r' hr' hR => ?_
        rw [hr'] at hrest
        exact ⟨hR, hrest⟩
      refine hfirst.bind ?_
      rintro a s' r' ⟨hR, hrest'⟩
      exact (ih hR hrest').bind fun as s'' r'' hR' => .ok hR'

end Stream

/-- The stream of a text answers all calls like the plain reader of the text, which scans every
token anew from behind the current one, if there is room for every token that is given back. -/
theorem Stream.answers_eq_reader_answers {line : Nat} {text : List Char} {calls : List Call}
    (hroom : Reader.hasRoom line text calls) :
    Stream.answers line text calls = Reader.answers line text calls := by
  have hstart : Stream.RefinesSession { state := .ofChars line text }
      { state := .ofChars line text } := ⟨Stream.refines_ofChars line text, .nil⟩
  exact (hstart.mapM hroom).fst_eq

/-- Calls that look at a slash in both operand modes, give it back and read it after a jump. -/
def Call.bothModes : List Call :=
  [.ask (.next true), .save, .ask (.peek false), .ask (.peekSecond true), .ask (.accept true .slash),
    .ask (.next true), .ask .unread, .ask (.accept false .slash), .rewind 0, .ask (.next true),
    .ask .unread, .ask .unread, .ask (.next false)]

theorem Stream.answers_eq_reader_answers_bothModes :
    Reader.hasRoom 1 "a /b/ /* c */ /d".toList Call.bothModes ∧
      Stream.answers 1 "a /b/ /* c */ /d".toList Call.bothModes =
        Reader.answers 1 "a /b/ /* c */ /d".toList Call.bothModes := by
  have hroom : Reader.hasRoom 1 "a /b/ /* c */ /d".toList Call.bothModes := by decide +kernel
  exact ⟨hroom, answers_eq_reader_answers hroom⟩

/-- Calls that look three tokens ahead, read the first of them in the other operand mode, so that
the ones behind it are dropped, and give back three tokens. -/
def Call.dropping : List Call :=
  List.replicate 6 (.ask (.next false)) ++ List.replicate 3 (.ask .unread) ++
    .ask (.next true) :: List.replicate 3 (.ask .unread) ++ [.ask (.next false)]

/-- Tokens that were dropped have taken the slots of earlier ones: although none of the calls
fails, at most three tokens are pending and only tokens that were read are given back, the token
read in the end is not the one behind the current one. -/
theorem Stream.answers_ne_reader_answers_dropping :
    Session.always Stream.answer Stream.rewind
        (fun call s => call != .ask .unread || s.lookahead < 3) Call.dropping
        { state := .ofChars 1 "s a b / c d/ e".toList } ∧
      Session.always Reader.answer (fun old _ => old)
        (fun call r => call != .ask .unread || !r.before.isEmpty) Call.dropping
        { state := .ofChars 1 "s a b / c d/ e".toList } ∧
      (Stream.answers 1 "s a b / c d/ e".toList Call.dropping).isOk ∧
      Stream.answers 1 "s a b / c d/ e".toList Call.dropping ≠
        Reader.answers 1 "s a b / c d/ e".toList Call.dropping := by
  decide +kernel

end ScriptMin
