import ScriptMin.Grammar.Hoist
import ScriptMin.Proofs.Token.Commenting

/-!
Going back to a saved state of the token stream. A saved state has all of the scanner in it but
the comments: only how many there were. So going back always restores the tokens and the lines
that follow, whatever happened in between, but the comments only if those that were collected
before the state was saved are still the first ones. They are, as long as none of them waited for
the token behind it and no token from before the state was saved is scanned again.
-/

namespace ScriptMin

open Lexeme

/-! ### Operations -/

/-- What can be done with a token stream, beside saving its state and going back. -/
inductive Operation where
  | ask (request : Request)
  | peekOnLine (operand : Bool)
  | isDone
  | readAll
  | setNewlines (newlines : Bool)
  | takeComments
  | lastToken
  | line
  deriving DecidableEq, Repr

/-- What an operation gives. -/
inductive Observation where
  | answer (answer : Answer)
  | tokens (tokens : Array Token)
  | comments (comments : Array Comment)
  | line (line : Nat)
  deriving DecidableEq, Repr

namespace Observation

def withoutComments : Observation → Observation
  | .comments _ => .comments #[]
  | o => o

end Observation

namespace Operation

def perform : Operation → Reading Observation
  | .ask request => .answer <$> Stream.answer request
  | .peekOnLine operand => (.answer <| .token ·) <$> Stream.peekOnLine operand
  | .isDone => (.answer <| .found ·) <$> Stream.isDone
  | .readAll => .tokens <$> Stream.readAll
  | .setNewlines newlines => fun s => .ok (.answer .nothing, { s with newlines })
  | .takeComments => .comments <$> Stream.takeComments
  | .lastToken => fun s => .ok (.answer (.token s.token), s)
  | .line => fun s => .ok (.line s.line, s)

/-- How many tokens can be given back after an operation without going behind the first one that
was read, if so many could before. -/
def roomAfter (n : Nat) : Operation → Observation → Nat
  | .ask (.next _), _ => n + 1
  | .ask (.accept _ _), .answer (.found true) => n + 1
  | .ask (.acceptWord _ _), .answer (.found true) => n + 1
  | .ask .unread, _ => n - 1
  | .readAll, .tokens tokens => n + tokens.size
  | _, _ => n

/-- Whether an operation leaves alone what was there before: it does not take the comments, and it
gives back a token only if one was read. -/
def staysWithin (n : Nat) : Operation → Bool
  | .takeComments => false
  | .ask .unread => 0 < n
  | _ => true

end Operation

/-- An operation, or a jump between states of the stream. -/
inductive Move where
  | perform (operation : Operation)
  | save
  /-- Goes back to the state that was saved in the given turn. -/
  | rewind (index : Nat)
  deriving DecidableEq, Repr

namespace Stream

def move : Move → StateT (Session Stream) (Except Fault) Observation
  | .perform operation => fun s => do
    let (o, state) ← operation.perform s.state
    return (o, { s with state })
  | .save => fun s => return (.answer .nothing, { s with saved := s.saved ++ [s.state] })
  | .rewind index => fun s =>
    match s.saved[index]? with
    | some old => return (.answer .nothing, { s with state := rewind old s.state })
    | none => return (.answer .nothing, s)

/-- What is observed in several moves, up to the first fault. -/
def trace : List Move → Session Stream → List (Except Fault Observation)
  | [], _ => []
  | m :: rest, s =>
    match move m s with
    | .ok (o, s') => .ok o :: trace rest s'
    | .error fault => [.error fault]

/-- What is observed in several moves by someone who does not look at comments. -/
def silentTrace (moves : List Move) (s : Session Stream) : List (Except Fault Observation) :=
  (trace moves s).map (·.map Observation.withoutComments)

/-- The streams that are reached from one by operations of a kind and by going back to streams
reached before. The number says how many tokens can be given back without going behind the first
one that was read. -/
inductive Onward (may : Nat → Operation → Bool) (s : Stream) : Nat → Stream → Prop
  | start : Onward may s 0 s
  | perform {n : Nat} {t t' : Stream} {operation : Operation} {o : Observation} :
      Onward may s n t → may n operation = true → operation.perform t = .ok (o, t') →
      Onward may s (operation.roomAfter n o) t'
  | rewind {n m : Nat} {old t : Stream} : Onward may s n old → Onward may s m t →
      Onward may s n (rewind old t)

/-- Performs several operations of a kind, unless one of them is not of the kind or fails. -/
def performAll (may : Nat → Operation → Bool) :
    List Operation → Nat → Stream → Option (Nat × Stream)
  | [], n, s => some (n, s)
  | operation :: rest, n, s =>
    if may n operation then
      match operation.perform s with
      | .ok (o, s') => performAll may rest (operation.roomAfter n o) s'
      | .error _ => none
    else none

theorem Onward.performAll {may : Nat → Operation → Bool} {operations : List Operation}
    {n m : Nat} {s t t' : Stream} (h : Onward may s n t)
    (hrun : performAll may operations n t = some (m, t')) : Onward may s m t' := by
  induction operations generalizing n t with
  | nil =>
      cases hrun
      exact h
  | cons operation rest ih =>
      simp only [Stream.performAll] at hrun
      split at hrun
      case isTrue hmay =>
          split at hrun
          case h_1 hperform => exact ih (h.perform hmay hperform) hrun
          case h_2 => cases hrun
      case isFalse => cases hrun

/-- The streams that are reached from the start of a text. -/
def Reached (line : Nat) (text : List Char) (s : Stream) : Prop :=
  ∃ n, Onward (fun _ _ => true) (ofChars line text) n s

/-! ### Streams that read the same tokens -/

variable {s s' t t' : Stream} {operand : Bool}

/-- Two streams that differ in their comments at most. -/
structure Matches (s t : Stream) : Prop where
  cursor : t.cursor = s.cursor
  token : ∀ i, (t.slots.get i).token = (s.slots.get i).token
  place : ∀ i, (t.slots.get i).place = (s.slots.get i).place
  current : t.current = s.current
  lookahead : t.lookahead = s.lookahead
  newlines : t.newlines = s.newlines

/-- Outcomes that agree, comments apart. -/
inductive Echo {σ ρ : Type} (R : σ → ρ → Prop) :
    Except Fault (Observation × σ) → Except Fault (Observation × ρ) → Prop
  | ok {o o' : Observation} {s : σ} {r : ρ} : o.withoutComments = o'.withoutComments → R s r →
      Echo R (.ok (o, s)) (.ok (o', r))
  | error {fault : Fault} : Echo R (.error fault) (.error fault)

theorem Agree.echo {σ ρ : Type} {R : σ → ρ → Prop} {x : Except Fault (Observation × σ)}
    {y : Except Fault (Observation × ρ)} (h : Agree R x y) : Echo R x y := by
  cases h with
  | ok hR => exact .ok rfl hR
  | error => exact .error

namespace Matches

theorem rewind (h : Matches s t) (u v : Stream) : Matches (s.rewind u) (t.rewind v) :=
  ⟨h.cursor, h.token, h.place, h.current, h.lookahead, h.newlines⟩

theorem refl (s : Stream) : Matches s s := ⟨rfl, fun _ => rfl, fun _ => rfl, rfl, rfl, rfl⟩

theorem rewind_self (s s' : Stream) : Matches (s.rewind s') s :=
  ⟨rfl, fun _ => rfl, fun _ => rfl, rfl, rfl, rfl⟩

theorem giveBack (h : Matches s t) : Matches s.giveBack t.giveBack where
  cursor := h.cursor
  token := h.token
  place := h.place
  current := by rw [Stream.giveBack, Stream.giveBack, h.current]
  lookahead := by rw [Stream.giveBack, Stream.giveBack, h.lookahead]
  newlines := h.newlines

theorem consume (h : Matches s t) (token : Token) : Matches (s.consume token) (t.consume token) :=
  ⟨h.cursor, h.token, h.place, h.current, h.lookahead, h.newlines⟩

theorem setNewlines (h : Matches s t) (newlines : Bool) :
    Matches { s with newlines } { t with newlines } :=
  ⟨h.cursor, h.token, h.place, h.current, h.lookahead, rfl⟩

theorem token_eq (h : Matches s t) : t.token = s.token := by
  rw [Stream.token, Stream.token, slot, slot, h.current, h.token]

theorem slot_place (h : Matches s t) : t.slot.place = s.slot.place := by
  rw [slot, slot, h.current, h.place]

/-- Gaps are passed over alike. -/
theorem skipGaps (h : Matches s t) (fuel : Nat) :
    (∃ fault, skipGaps fuel s = .error fault ∧ skipGaps fuel t = .error fault) ∨
      ∃ s' t', skipGaps fuel s = .ok s' ∧ skipGaps fuel t = .ok t' ∧ Matches s' t' := by
  have hmap := map_cursor_skipGaps fuel h.cursor h.newlines
  cases hs : Stream.skipGaps fuel s with
  | error fault =>
      cases ht : Stream.skipGaps fuel t with
      | error fault' =>
          rw [hs, ht] at hmap
          cases hmap
          exact .inl ⟨fault, rfl, rfl⟩
      | ok t' =>
          rw [hs, ht] at hmap
          cases hmap
  | ok s' =>
      cases ht : Stream.skipGaps fuel t with
      | error fault =>
          rw [hs, ht] at hmap
          cases hmap
      | ok t' =>
          rw [hs, ht] at hmap
          obtain ⟨hslots, hcurrent, hlookahead, hnewlines, -⟩ := skipGaps_sameRing hs
          obtain ⟨hslots', hcurrent', hlookahead', hnewlines', -⟩ := skipGaps_sameRing ht
          refine .inr ⟨s', t', rfl, rfl, Except.ok.inj hmap, ?_, ?_, ?_, ?_, ?_⟩
          · rw [hslots, hslots']
            exact h.token
          · rw [hslots, hslots']
            exact h.place
          · rw [hcurrent, hcurrent', h.current]
          · rw [hlookahead, hlookahead', h.lookahead]
          · rw [hnewlines, hnewlines', h.newlines]

/-- A lexeme becomes the same token in both. -/
theorem tokenOf_eq (h : Matches s t) (l : Lexeme) : t.tokenOf l = s.tokenOf l := by
  rw [tokenOf, tokenOf, h.cursor]

theorem scanned (h : Matches s t) (l : Lexeme) : Matches (s.scanned l) (t.scanned l) where
  cursor := by rw [scanned_cursor, scanned_cursor, h.cursor]
  token i := by
    rw [scanned_slots, scanned_slots, h.current]
    by_cases hi : s.current = i
    · rw [← hi, get_set_self, get_set_self]
      exact h.tokenOf_eq l
    · rw [get_set_ne _ hi, get_set_ne _ hi, h.token]
  place i := by
    rw [scanned_slots, scanned_slots, h.current]
    by_cases hi : s.current = i
    · rw [← hi, get_set_self, get_set_self]
      exact h.cursor
    · rw [get_set_ne _ hi, get_set_ne _ hi, h.place]
  current := by rw [scanned_current, scanned_current, h.current]
  lookahead := by rw [scanned_lookahead, scanned_lookahead, h.lookahead]
  newlines := by
    show (t.pass l).newlines = (s.pass l).newlines
    rw [pass_newlines, pass_newlines, h.newlines]

theorem scanHere (h : Matches s t) (operand : Bool) :
    Agree Matches (scanHere operand s) (scanHere operand t) := by
  cases hscan : Lexeme.scan operand s.cursor.rest with
  | error cause =>
      have hs : Stream.scanHere operand s = .error ⟨.lexical cause, s.cursor.line⟩ := by
        simp only [Stream.scanHere, hscan]
      have ht : Stream.scanHere operand t = .error ⟨.lexical cause, s.cursor.line⟩ := by
        simp only [Stream.scanHere, h.cursor, hscan]
      rw [hs, ht]
      exact .error
  | ok l =>
      have hscan' : Lexeme.scan operand t.cursor.rest = .ok l := by rw [h.cursor, hscan]
      rw [scanHere_eq hscan, scanHere_eq hscan', (h.scanned l).token_eq]
      exact .ok (h.scanned l)

theorem rescan (h : Matches s t) (operand : Bool) :
    Agree Matches (rescan operand s) (rescan operand t) := by
  unfold Stream.rescan
  refine scanHere ?_ operand
  exact ⟨h.slot_place, h.token, h.place, h.current, rfl, h.newlines⟩

/-- Tokens that were given back are read alike, and so are those behind them. -/
theorem readFrom (h : Matches s t) (operand : Bool) (n : Nat) :
    Agree Matches (readFrom operand n s) (readFrom operand n t) := by
  induction n generalizing s t with
  | zero =>
      have hstart : Matches { s with lookahead := 0 } { t with lookahead := 0 } :=
        ⟨h.cursor, h.token, h.place, h.current, rfl, h.newlines⟩
      have hlength : t.cursor.rest.length = s.cursor.rest.length := by rw [h.cursor]
      unfold Stream.readFrom
      rw [hlength]
      obtain ⟨fault, hs, ht⟩ | ⟨s', t', hs, ht, hskip⟩ :=
        hstart.skipGaps (s.cursor.rest.length + 1)
      · rw [hs, ht]
        exact .error
      · rw [hs, ht]
        have hforth : Matches { s' with current := s'.current + 1 }
            { t' with current := t'.current + 1 } :=
          ⟨hskip.cursor, hskip.token, hskip.place, congrArg (· + 1) hskip.current,
            hskip.lookahead, hskip.newlines⟩
        exact hforth.scanHere operand
  | succ n ih =>
      unfold Stream.readFrom
      have hnext : Matches { s with lookahead := n, current := s.current + 1 }
          { t with lookahead := n, current := t.current + 1 } :=
        ⟨h.cursor, h.token, h.place, congrArg (· + 1) h.current, rfl, h.newlines⟩
      revert hnext
      generalize ({ s with lookahead := n, current := s.current + 1 } : Stream) = s₁
      generalize ({ t with lookahead := n, current := t.current + 1 } : Stream) = t₁
      intro hnext
      simp only [hnext.token_eq, hnext.newlines]
      split
      · exact ih hnext
      · split
        · exact hnext.rescan operand
        · exact .ok hnext

theorem next (h : Matches s t) (operand : Bool) :
    Agree Matches (next operand s) (next operand t) := by
  rw [Stream.next, Stream.next, h.lookahead]
  exact (h.readFrom operand s.lookahead).bind fun _ _ _ hread => .ok (hread.consume _)

theorem peek (h : Matches s t) (operand : Bool) :
    Agree Matches (peek operand s) (peek operand t) :=
  (h.next operand).bind fun _ _ _ hnext => .ok hnext.giveBack

theorem peekSecond (h : Matches s t) (operand : Bool) :
    Agree Matches (peekSecond operand s) (peekSecond operand t) :=
  (h.next operand).bind fun _ _ _ hfirst =>
    (hfirst.next false).bind fun _ _ _ hsecond => .ok hsecond.giveBack.giveBack

theorem nextIf (h : Matches s t) (operand : Bool) (test : Token → Bool) :
    Agree Matches (nextIf operand test s) (nextIf operand test t) := by
  refine (h.next operand).bind fun token s' t' hnext => ?_
  cases htest : test token with
  | true =>
      simp only [htest, if_true]
      exact .ok hnext
  | false =>
      simp only [htest, if_false, Bool.false_eq_true]
      exact .ok hnext.giveBack

theorem peekOnLine (h : Matches s t) (operand : Bool) :
    Agree Matches (peekOnLine operand s) (peekOnLine operand t) := by
  rw [peekOnLine_eq, peekOnLine_eq, h.token_eq]
  exact ((h.setNewlines true).peek operand).bind fun _ _ _ hpeek => .ok (hpeek.setNewlines false)

theorem isDone (h : Matches s t) : Agree Matches (isDone s) (isDone t) :=
  (h.peek false).map (·.kind == .endOfInput)

theorem readAllFrom (h : Matches s t) (fuel : Nat) (operand : Bool) (tokens : Array Token) :
    Agree Matches (readAllFrom fuel operand tokens s) (readAllFrom fuel operand tokens t) := by
  induction fuel generalizing s t operand tokens with
  | zero => exact .ok h
  | succ fuel ih =>
      refine (h.next operand).bind fun token s' t' hnext => ?_
      by_cases hend : token.kind = .endOfInput
      · simp only [hend, if_true]
        exact .ok hnext
      · simp only [hend, if_false]
        exact ih hnext _ _

theorem readAll (h : Matches s t) : Agree Matches (readAll s) (readAll t) := by
  have hrun := h.readAllFrom (s.cursor.offset + s.cursor.rest.length + s.lookahead + 1) true #[]
  have ht : Stream.readAll t = Stream.readAllFrom
      (s.cursor.offset + s.cursor.rest.length + s.lookahead + 1) true #[] t := by
    rw [← h.cursor, ← h.lookahead]
    rfl
  rw [ht]
  exact hrun

theorem answer (h : Matches s t) (request : Request) :
    Agree Matches (answer request s) (answer request t) := by
  cases request with
  | next operand => exact (h.next operand).map Answer.token
  | peek operand => exact (h.peek operand).map Answer.token
  | peekSecond operand => exact (h.peekSecond operand).map Answer.token
  | accept operand sign => exact (h.nextIf operand (·.isPunctuator sign)).map Answer.found
  | acceptWord operand word => exact (h.nextIf operand (·.isKeyword word)).map Answer.found
  | unread => exact .ok h.giveBack

/-- An operation gives the same in both, comments apart. -/
theorem perform (h : Matches s t) (operation : Operation) :
    Echo Matches (operation.perform s) (operation.perform t) := by
  cases operation with
  | ask request => exact ((h.answer request).map Observation.answer).echo
  | peekOnLine operand => exact ((h.peekOnLine operand).map fun t => .answer (.token t)).echo
  | isDone => exact (h.isDone.map fun done => .answer (.found done)).echo
  | readAll => exact (h.readAll.map Observation.tokens).echo
  | setNewlines newlines => exact .ok rfl (h.setNewlines newlines)
  | takeComments =>
      exact .ok rfl ⟨h.cursor, h.token, h.place, h.current, h.lookahead, h.newlines⟩
  | lastToken => exact .ok (congrArg (fun t => Observation.answer (.token t)) h.token_eq.symm) h
  | line => exact .ok (congrArg (fun c : Cursor => Observation.line c.line) h.cursor.symm) h

end Matches

/-! ### Tokens and lines -/

/-- The states of two sessions, and the states that were saved in them, differ in their comments
at most. -/
structure MatchesSession (s t : Session Stream) : Prop where
  state : Matches s.state t.state
  saved : List.Forall₂ Matches s.saved t.saved

namespace MatchesSession

variable {s t : Session Stream}

theorem move (h : MatchesSession s t) (m : Move) :
    Echo MatchesSession (move m s) (move m t) := by
  cases m with
  | perform operation =>
      have hperform := h.state.perform operation
      simp only [Stream.move]
      revert hperform
      generalize operation.perform s.state = x
      generalize operation.perform t.state = y
      rintro (⟨ho, hR⟩ | _)
      · exact .ok ho ⟨hR, h.saved⟩
      · exact .error
  | save => exact .ok rfl ⟨h.state, List.rel_append h.saved (.cons h.state .nil)⟩
  | rewind index =>
      have hlength := h.saved.length_eq
      by_cases hindex : index < s.saved.length
      · have hold := h.saved.get hindex (hlength ▸ hindex)
        simp only [Stream.move, List.getElem?_eq_getElem hindex,
          List.getElem?_eq_getElem (hlength ▸ hindex : index < t.saved.length)]
        exact .ok rfl ⟨hold.rewind _ _, h.saved⟩
      · simp only [Stream.move, List.getElem?_eq_none (Nat.le_of_not_lt hindex),
          List.getElem?_eq_none (hlength ▸ Nat.le_of_not_lt hindex : t.saved.length ≤ index)]
        exact .ok rfl h

theorem silentTrace_eq (h : MatchesSession s t) (moves : List Move) :
    silentTrace moves s = silentTrace moves t := by
  induction moves generalizing s t with
  | nil => rfl
  | cons m rest ih =>
      have hmove := h.move m
      simp only [silentTrace, trace]
      revert hmove
      generalize Stream.move m s = x
      generalize Stream.move m t = y
      rintro (⟨ho, hR⟩ | _)
      · simp only [List.map_cons, Except.map, ho]
        exact congrArg (_ :: ·) (ih hR)
      · rfl

end MatchesSession

/-! ### Invariants of reading -/

/-- A property of streams in which a number of tokens can be given back, that is kept by whatever
does not go behind the first token that was read. -/
structure Stable (P : Nat → Stream → Prop) : Prop where
  next : ∀ {n s s' operand t}, P n s → Stream.next operand s = .ok (t, s') → P (n + 1) s'
  giveBack : ∀ {n s}, P (n + 1) s → P n s.giveBack
  setNewlines : ∀ {n s} newlines, P n s → P n { s with newlines }
  rewind : ∀ {n m s s'}, P n s → P m s' → P n (s.rewind s')
  /-- It is no loss to know of one token less that can be given back. -/
  forget : ∀ {n s}, P (n + 1) s → P n s

theorem map_eq_ok {α β : Type} {m : Reading α} {f : α → β} {b : β} (h : (f <$> m) s = .ok (b, s')) :
    ∃ a, m s = .ok (a, s') ∧ f a = b := by
  obtain ⟨a, s₁, hm, hpure⟩ := bind_eq_ok (f := fun a => pure (f a)) h
  cases hpure
  exact ⟨a, hm, rfl⟩

theorem peekSecond_eq_ok {t : Token} (h : peekSecond operand s = .ok (t, s')) :
    ∃ first s₁ s₂, next operand s = .ok (first, s₁) ∧ next false s₁ = .ok (t, s₂) ∧
      s₂.giveBack.giveBack = s' := by
  obtain ⟨first, s₁, hfirst, h⟩ := bind_eq_ok h
  obtain ⟨second, s₂, hsecond, h⟩ := bind_eq_ok h
  cases h
  exact ⟨first, s₁, s₂, hfirst, hsecond, rfl⟩

namespace Stable

variable {P : Nat → Stream → Prop} {n : Nat}

theorem peek (h : Stable P) (hs : P n s) {t : Token} (hrun : peek operand s = .ok (t, s')) :
    P n s' := by
  obtain ⟨s₁, hnext, rfl⟩ := peek_eq_ok hrun
  exact h.giveBack (h.next hs hnext)

theorem nextIf (h : Stable P) (hs : P n s) {test : Token → Bool} {found : Bool}
    (hrun : nextIf operand test s = .ok (found, s')) : P (if found then n + 1 else n) s' := by
  obtain ⟨t, s₁, hnext, rfl⟩ := nextIf_eq_ok hrun
  have hread := h.next hs hnext
  cases found with
  | true => exact hread
  | false => exact h.giveBack hread

theorem readAllFrom (h : Stable P) {fuel : Nat} {tokens all : Array Token} (hs : P n s)
    (hrun : readAllFrom fuel operand tokens s = .ok (all, s')) :
    ∃ m, all.size = tokens.size + m ∧ P (n + m) s' := by
  induction fuel generalizing s n operand tokens with
  | zero =>
      cases hrun
      exact ⟨0, rfl, hs⟩
  | succ fuel ih =>
      obtain ⟨t, s₁, hnext, hrun⟩ := bind_eq_ok hrun
      have hread := h.next hs hnext
      split at hrun
      · cases hrun
        exact ⟨0, rfl, h.forget hread⟩
      · obtain ⟨m, hsize, hP⟩ := ih hread hrun
        rw [Array.size_push] at hsize
        exact ⟨m + 1, by omega, by rwa [Nat.add_right_comm] at hP⟩

theorem perform (h : Stable P) (hs : P n s) {operation : Operation} {o : Observation}
    (hwithin : operation.staysWithin n = true) (hrun : operation.perform s = .ok (o, s')) :
    P (operation.roomAfter n o) s' := by
  cases operation with
  | ask request =>
      obtain ⟨a, hanswer, rfl⟩ := map_eq_ok hrun
      cases request with
      | next operand =>
          obtain ⟨t, hnext, rfl⟩ := map_eq_ok hanswer
          exact h.next hs hnext
      | peek operand =>
          obtain ⟨t, hpeek, rfl⟩ := map_eq_ok hanswer
          exact h.peek hs hpeek
      | peekSecond operand =>
          obtain ⟨t, hpeek, rfl⟩ := map_eq_ok hanswer
          obtain ⟨first, s₁, s₂, hfirst, hsecond, rfl⟩ := peekSecond_eq_ok hpeek
          exact h.giveBack (h.giveBack (h.next (h.next hs hfirst) hsecond))
      | accept operand sign =>
          obtain ⟨found, haccept, rfl⟩ := map_eq_ok hanswer
          have hP := h.nextIf hs haccept
          cases found <;> exact hP
      | acceptWord operand word =>
          obtain ⟨found, haccept, rfl⟩ := map_eq_ok hanswer
          have hP := h.nextIf hs haccept
          cases found <;> exact hP
      | unread =>
          cases hanswer
          obtain ⟨m, rfl⟩ := Nat.exists_eq_succ_of_ne_zero (of_decide_eq_true hwithin).ne'
          exact h.giveBack hs
  | peekOnLine operand =>
      obtain ⟨t, hpeek, rfl⟩ := map_eq_ok hrun
      obtain ⟨found, s₁, hnext, rfl, -⟩ := peekOnLine_eq_ok hpeek
      exact h.setNewlines false (h.giveBack (h.next (h.setNewlines true hs) hnext))
  | isDone =>
      obtain ⟨done, hdone, rfl⟩ := map_eq_ok hrun
      obtain ⟨t, hpeek, -⟩ :=
        map_eq_ok (m := Stream.peek false) (f := (·.kind == .endOfInput)) hdone
      exact h.peek hs hpeek
  | readAll =>
      obtain ⟨all, hall, rfl⟩ := map_eq_ok hrun
      obtain ⟨m, hsize, hP⟩ := h.readAllFrom hs hall
      show P (n + all.size) s'
      rwa [hsize, Array.size_empty, Nat.zero_add]
  | setNewlines newlines =>
      cases hrun
      exact h.setNewlines newlines hs
  | takeComments => cases hwithin
  | lastToken =>
      cases hrun
      exact hs
  | line =>
      cases hrun
      exact hs

/-- What is kept holds of every stream that is reached without going behind the first token. -/
theorem onward (h : Stable P) {t : Stream} (hs : P 0 s)
    (ht : Onward Operation.staysWithin s n t) : P n t := by
  induction ht with
  | start => exact hs
  | perform _ hwithin hrun ih => exact h.perform ih hwithin hrun
  | rewind _ _ ih ih' => exact h.rewind ih ih'

end Stable

/-! ### Where comments wait -/

/-- The comments that wait are among those that are there. -/
def Tidy (s : Stream) : Prop := s.unsettled ≤ s.comments.size

/-- Passing over gaps collects comments behind those that are there. -/
theorem skipGaps_comments {fuel : Nat} (h : skipGaps fuel s = .ok s') :
    s.comments.toList <+: s'.comments.toList ∧ s'.unsettled = s.unsettled := by
  induction fuel generalizing s with
  | zero =>
      cases h
      exact ⟨List.prefix_rfl, rfl⟩
  | succ fuel ih =>
      unfold skipGaps at h
      split at h
      · cases h
        exact ⟨List.prefix_rfl, rfl⟩
      · obtain ⟨hstart, hunsettled⟩ := ih h
        exact ⟨hstart, hunsettled⟩
      · split at h
        · cases h
          exact ⟨List.prefix_rfl, rfl⟩
        · obtain ⟨hstart, hunsettled⟩ := ih h
          exact ⟨hstart, hunsettled⟩
      · obtain ⟨hstart, hunsettled⟩ := ih h
        refine ⟨.trans ?_ hstart, hunsettled⟩
        simp only [collect, Array.toList_push]
        exact List.prefix_append _ _
      · cases h

/-- Settling leaves the comments alone that do not wait. -/
theorem settle_comments {before : Array Comment} (line : Nat)
    (hstart : before.toList <+: s.comments.toList) (hsettled : before.size ≤ s.unsettled) :
    before.toList <+: (s.settle line).comments.toList := by
  unfold settle
  split
  · obtain ⟨hlength, heq⟩ := List.prefix_iff_getElem.mp hstart
    refine List.prefix_iff_getElem.mpr ⟨by simpa using hlength, fun i hi => ?_⟩
    have hwaits : ¬ s.unsettled ≤ i := by
      have : i < before.size := hi
      omega
    simpa [hwaits] using heq i hi
  · exact hstart

theorem settle_unsettled (s : Stream) (line : Nat) :
    (s.settle line).unsettled = s.comments.size := by
  unfold settle
  split <;> rfl

/-- Scanning leaves the comments alone that do not wait. -/
theorem scanned_comments {before : Array Comment} (l : Lexeme)
    (hstart : before.toList <+: s.comments.toList) (hsettled : before.size ≤ s.unsettled) :
    before.toList <+: (s.scanned l).comments.toList ∧ before.size ≤ (s.scanned l).unsettled := by
  show before.toList <+: (s.pass l).comments.toList ∧ before.size ≤ (s.pass l).unsettled
  unfold pass
  split
  · refine ⟨settle_comments _ hstart hsettled, ?_⟩
    show _ ≤ (settle _ _).unsettled
    rw [settle_unsettled]
    exact hstart.length_le
  · exact ⟨hstart, hsettled⟩

theorem scanned_tidy (h : Tidy s) (l : Lexeme) : Tidy (s.scanned l) := by
  show (s.pass l).unsettled ≤ (s.pass l).comments.size
  unfold pass
  split
  · show (settle _ _).unsettled ≤ (settle _ _).comments.size
    rw [settle_unsettled]
    unfold settle
    split <;> simp
  · exact h

/-- Leaving out the last comments leaves the first ones. -/
theorem prefix_extract {before comments : Array Comment} {count : Nat}
    (hstart : before.toList <+: comments.toList) (hcount : before.size ≤ count) :
    before.toList <+: (comments.extract 0 count).toList := by
  rw [Array.toList_extract, List.extract_eq_take_drop]
  exact List.prefix_take_iff.mpr ⟨hstart, hcount⟩

/-! ### Comments that were there before -/

/-- A slot whose token may have to be scanned again marks the given number of comments at least. -/
def Firm (count : Nat) (slot : Slot) : Prop := slot.token.Ambiguous → count ≤ slot.commentCount

/-- The given number of slots behind a slot are firm. -/
def FirmAhead (count : Nat) (slots : Vector Slot 4) : Nat → Fin 4 → Prop
  | 0, _ => True
  | n + 1, i => Firm count (slots.get (i + 1)) ∧ FirmAhead count slots n (i + 1)

/-- The given number of slots up to a slot are firm. -/
def FirmBehind (count : Nat) (slots : Vector Slot 4) : Nat → Fin 4 → Prop
  | 0, _ => True
  | n + 1, i => Firm count (slots.get i) ∧ FirmBehind count slots n (i - 1)

theorem FirmBehind.set {count n : Nat} {slots : Vector Slot 4} {i j : Fin 4} {slot : Slot}
    (h : FirmBehind count slots n j) (hslot : Firm count slot) :
    FirmBehind count (slots.set i slot i.isLt) n j := by
  induction n generalizing j with
  | zero => trivial
  | succ n ih =>
      refine ⟨?_, ih h.2⟩
      by_cases hij : i = j
      · rw [← hij, get_set_self]
        exact hslot
      · rw [get_set_ne _ hij]
        exact h.1

theorem FirmBehind.forget {count n : Nat} {slots : Vector Slot 4} {i : Fin 4}
    (h : FirmBehind count slots (n + 1) i) : FirmBehind count slots n i := by
  induction n generalizing i with
  | zero => trivial
  | succ n ih => exact ⟨h.1, ih h.2⟩

/-- Some comments are the first ones of a stream in which a number of tokens can be given back, and
they stay: they do not wait, and no token in front of one of them is scanned again. -/
structure Holds (before : Array Comment) (n : Nat) (s : Stream) : Prop where
  comments : before.toList <+: s.comments.toList
  tidy : Tidy s
  settled : before.size ≤ s.unsettled
  behind : FirmBehind before.size s.slots n s.current
  ahead : FirmAhead before.size s.slots s.lookahead s.current

namespace Holds

variable {before : Array Comment} {n : Nat} {t : Token}

theorem scanHere (hrun : scanHere operand s = .ok (t, s'))
    (hcomments : before.toList <+: s.comments.toList) (htidy : Tidy s)
    (hsettled : before.size ≤ s.unsettled)
    (hbehind : FirmBehind before.size s.slots n (s.current - 1)) (hlookahead : s.lookahead = 0) :
    Holds before (n + 1) s' := by
  cases hscan : Lexeme.scan operand s.cursor.rest with
  | error cause =>
      simp only [Stream.scanHere, hscan] at hrun
      cases hrun
  | ok l =>
      rw [scanHere_eq hscan] at hrun
      cases hrun
      obtain ⟨hstart, hunsettled⟩ := scanned_comments l hcomments hsettled
      have hfirm : Firm before.size (s.slotOf l) := fun _ => hstart.length_le
      refine ⟨hstart, scanned_tidy htidy l, hunsettled, ?_, ?_⟩
      · rw [scanned_slots, scanned_current]
        refine ⟨?_, hbehind.set hfirm⟩
        rw [get_set_self]
        exact hfirm
      · rw [scanned_lookahead, hlookahead]
        trivial

theorem readFrom {k : Nat} (h : Holds before n { s with lookahead := k })
    (hrun : readFrom operand k s = .ok (t, s')) : Holds before (n + 1) s' := by
  obtain ⟨hcomments, htidy, hsettled, hbehind, hahead⟩ := h
  induction k generalizing s n with
  | zero =>
      unfold Stream.readFrom at hrun
      cases hskip : skipGaps (s.cursor.rest.length + 1) { s with lookahead := 0 } with
      | error fault =>
          rw [hskip] at hrun
          cases hrun
      | ok s₁ =>
          rw [hskip] at hrun
          obtain ⟨hstart, hunsettled⟩ := skipGaps_comments hskip
          obtain ⟨hslots, hcurrent, hlookahead, -, -⟩ := skipGaps_sameRing hskip
          have htidy' : Tidy s₁ := hunsettled.trans_le (htidy.trans hstart.length_le)
          refine scanHere hrun (hcomments.trans hstart) htidy'
            (hsettled.trans_eq hunsettled.symm) ?_ hlookahead
          show FirmBehind before.size s₁.slots n (s₁.current + 1 - 1)
          rw [add_one_sub_one, hslots, hcurrent]
          exact hbehind
  | succ k ih =>
      obtain ⟨hfirm, hahead⟩ := hahead
      have hmore : FirmBehind before.size s.slots (n + 1) (s.current + 1) := by
        refine ⟨hfirm, ?_⟩
        rw [add_one_sub_one]
        exact hbehind
      unfold Stream.readFrom at hrun
      dsimp only at hrun
      split at hrun
      · have hskipped := ih hrun hcomments htidy hsettled hmore hahead
        exact ⟨hskipped.comments, hskipped.tidy, hskipped.settled, hskipped.behind.forget,
          hskipped.ahead⟩
      · split at hrun
        case isTrue hdepends =>
            have hcount := hfirm ⟨operand, hdepends⟩
            refine scanHere hrun (prefix_extract hcomments hcount) (Nat.min_le_right _ _) ?_ ?_ rfl
            · exact Nat.le_min.mpr ⟨hsettled, (prefix_extract hcomments hcount).length_le⟩
            · show FirmBehind before.size s.slots n (s.current + 1 - 1)
              rw [add_one_sub_one]
              exact hbehind
        case isFalse =>
            cases hrun
            exact ⟨hcomments, htidy, hsettled, hmore, hahead⟩

theorem next (h : Holds before n s) (hrun : Stream.next operand s = .ok (t, s')) :
    Holds before (n + 1) s' := by
  obtain ⟨s₁, hread, rfl⟩ := next_eq_ok hrun
  obtain ⟨hcomments, htidy, hsettled, hbehind, hahead⟩ := h.readFrom hread
  exact ⟨hcomments, htidy, hsettled, hbehind, hahead⟩

theorem stable (before : Array Comment) : Stable (Holds before) where
  next := next
  giveBack := by
    rintro n s ⟨hcomments, htidy, hsettled, ⟨hfirm, hbehind⟩, hahead⟩
    refine ⟨hcomments, htidy, hsettled, hbehind, ?_, ?_⟩
    · show Firm before.size (s.slots.get (s.current - 1 + 1))
      rw [sub_one_add_one]
      exact hfirm
    · show FirmAhead before.size s.slots s.lookahead (s.current - 1 + 1)
      rw [sub_one_add_one]
      exact hahead
  setNewlines _ h := ⟨h.comments, h.tidy, h.settled, h.behind, h.ahead⟩
  rewind h h' :=
    ⟨prefix_extract h'.comments h.comments.length_le, Nat.min_le_right _ _,
      Nat.le_min.mpr ⟨h.settled, (prefix_extract h'.comments h.comments.length_le).length_le⟩,
      h.behind, h.ahead⟩
  forget h := ⟨h.comments, h.tidy, h.settled, h.behind.forget, h.ahead⟩

end Holds

/-- Nothing in front of the tokens that were read is told anew: no comment waits for the token
behind it, and no token in front of a comment was given back that may have to be scanned again. -/
structure AtRest (s : Stream) : Prop where
  settled : s.unsettled = s.comments.size
  ahead : FirmAhead s.comments.size s.slots s.lookahead s.current

theorem AtRest.holds (h : AtRest s) : Holds s.comments 0 s :=
  ⟨List.prefix_rfl, h.settled.le, h.settled.ge, trivial, h.ahead⟩

/-! ### Behind a token -/

def slotBehind : Nat → Fin 4 → Fin 4
  | 0, i => i
  | n + 1, i => slotBehind n (i + 1)

def lastScanned (s : Stream) : Token := (s.slots.get (slotBehind s.lookahead s.current)).token

/-- No comment waits if the token that was scanned last is more than a line break or the end of the
text. -/
def Settled (s : Stream) : Prop :=
  s.lastScanned.kind ≠ .newline → s.lastScanned.kind ≠ .endOfInput →
    s.unsettled = s.comments.size

theorem settled_ofChars (line : Nat) (text : List Char) : Settled (ofChars line text) :=
  fun _ _ => rfl

theorem Settled.scanHere {t : Token} (hrun : Stream.scanHere operand s = .ok (t, s'))
    (hlookahead : s.lookahead = 0) : Settled s' := by
  cases hscan : Lexeme.scan operand s.cursor.rest with
  | error cause =>
      simp only [Stream.scanHere, hscan] at hrun
      cases hrun
  | ok l =>
      rw [scanHere_eq hscan] at hrun
      cases hrun
      intro hnewline hend
      have hlast : (s.scanned l).lastScanned = s.tokenOf l := by
        rw [lastScanned, scanned_lookahead, hlookahead]
        exact congrArg Slot.token (slot_scanned s l)
      rw [hlast] at hnewline hend
      have hcode : isCode l = true := by
        unfold isCode
        split
        · exact absurd ‹_› hnewline
        · exact absurd ‹_› hend
        · rfl
      show (s.pass l).unsettled = (s.pass l).comments.size
      simp only [pass, hcode, if_true]
      rw [settle_unsettled]
      unfold settle
      split <;> simp

theorem Settled.readFrom {t : Token} {n : Nat} (h : Settled { s with lookahead := n })
    (hrun : Stream.readFrom operand n s = .ok (t, s')) : Settled s' := by
  induction n generalizing s with
  | zero =>
      unfold Stream.readFrom at hrun
      cases hskip : Stream.skipGaps (s.cursor.rest.length + 1) { s with lookahead := 0 } with
      | error fault =>
          rw [hskip] at hrun
          cases hrun
      | ok s₁ =>
          rw [hskip] at hrun
          exact .scanHere hrun (skipGaps_sameRing hskip).lookahead
  | succ n ih =>
      unfold Stream.readFrom at hrun
      dsimp only at hrun
      split at hrun
      · exact ih h hrun
      · split at hrun
        · exact .scanHere hrun rfl
        · cases hrun
          exact h

theorem Settled.next {t : Token} (h : Settled s) (hrun : Stream.next operand s = .ok (t, s')) :
    Settled s' := by
  obtain ⟨s₁, hread, rfl⟩ := next_eq_ok hrun
  have hsettled : Settled s₁ := h.readFrom hread
  exact hsettled

theorem Settled.giveBack (h : Settled s) : Settled s.giveBack := by
  have hlast : s.giveBack.lastScanned = s.lastScanned := by
    show (s.slots.get (slotBehind s.lookahead (s.current - 1 + 1))).token = _
    rw [sub_one_add_one]
    rfl
  rw [Settled, hlast]
  exact h

/-- Behind a token that is more than a line break or the end of the text nothing is told anew. -/
theorem Settled.atRest (h : Settled s) (hlookahead : s.lookahead = 0)
    (hnewline : s.token.kind ≠ .newline) (hend : s.token.kind ≠ .endOfInput) : AtRest s := by
  have hlast : s.lastScanned = s.token := by
    rw [lastScanned, hlookahead]
    rfl
  rw [← hlast] at hnewline hend
  refine ⟨h hnewline hend, ?_⟩
  rw [hlookahead]
  trivial

theorem atRest_ofChars (line : Nat) (text : List Char) : AtRest (ofChars line text) := ⟨rfl, trivial⟩

/-- How the grammar finds the stream: line breaks are no tokens, and no comment waits behind a
token. -/
structure Ready (s : Stream) : Prop where
  newlines : s.newlines = false
  settled : Settled s

namespace Ready

variable {t : Token}

theorem next (h : Ready s) (hrun : Stream.next operand s = .ok (t, s')) : Ready s' :=
  ⟨(newlines_next hrun).trans h.newlines, h.settled.next hrun⟩

theorem giveBack (h : Ready s) : Ready s.giveBack := ⟨h.newlines, h.settled.giveBack⟩

theorem peek (h : Ready s) (hrun : Stream.peek operand s = .ok (t, s')) : Ready s' := by
  obtain ⟨s₁, hnext, rfl⟩ := peek_eq_ok hrun
  exact (h.next hnext).giveBack

theorem peekOnLine (h : Ready s) (hrun : Stream.peekOnLine operand s = .ok (t, s')) :
    Ready s' := by
  obtain ⟨_, s₁, hnext, rfl, -⟩ := peekOnLine_eq_ok hrun
  have hsettled : Settled { s with newlines := true } := h.settled
  exact ⟨rfl, (hsettled.next hnext).giveBack⟩

end Ready

/-! ### Readings that fail -/

theorem passGaps_comments (fuel : Nat) (s : Stream) :
    s.comments.toList <+: (passGaps fuel s).comments.toList := by
  induction fuel generalizing s with
  | zero => exact List.prefix_rfl
  | succ fuel ih =>
      unfold passGaps
      split
      · exact List.prefix_rfl
      · exact List.prefix_rfl
      · exact ih { s with cursor := s.cursor.step }
      · rename_i length _
        split
        · exact List.prefix_rfl
        · exact ih { s with cursor := s.cursor.advance length }
      · refine .trans ?_ (ih _)
        simp only [collect, Array.toList_push]
        exact List.prefix_append _ _

/-- A reading that fails leaves the comments that are held. -/
theorem Holds.giveUpFrom {before : Array Comment} {n k : Nat} {fault : Fault}
    (h : Holds before n { s with lookahead := k }) (hrun : Stream.readFrom operand k s = .error fault) :
    before.toList <+: (giveUpFrom k s).comments.toList := by
  obtain ⟨hcomments, htidy, hsettled, hbehind, hahead⟩ := h
  induction k generalizing s n with
  | zero => exact hcomments.trans (passGaps_comments _ { s with lookahead := 0 })
  | succ k ih =>
      obtain ⟨hfirm, hahead⟩ := hahead
      have hmore : FirmBehind before.size s.slots (n + 1) (s.current + 1) := by
        refine ⟨hfirm, ?_⟩
        rw [add_one_sub_one]
        exact hbehind
      unfold Stream.readFrom at hrun
      unfold Stream.giveUpFrom
      dsimp only at hrun ⊢
      split at hrun
      case isTrue hskipped =>
          rw [if_pos hskipped]
          exact ih hrun hcomments htidy hsettled hmore hahead
      case isFalse hskipped =>
          rw [if_neg hskipped]
          split at hrun
          case isTrue hdepends => exact prefix_extract hcomments (hfirm ⟨operand, hdepends⟩)
          case isFalse => cases hrun

/-! ### Going back -/

theorem firm_zero (slot : Slot) : Firm 0 slot := fun _ => Nat.zero_le _

/-- Of no comments nothing is asked. -/
theorem Tidy.holds (h : Tidy s) (n : Nat) : Holds #[] n s where
  comments := List.nil_prefix
  tidy := h
  settled := Nat.zero_le _
  behind := by
    generalize s.current = i
    induction n generalizing i with
    | zero => trivial
    | succ n ih => exact ⟨firm_zero _, ih _⟩
  ahead := by
    generalize s.current = i
    generalize s.lookahead = k
    induction k generalizing i with
    | zero => trivial
    | succ k ih => exact ⟨firm_zero _, ih _⟩

theorem Tidy.perform (h : Tidy s) {operation : Operation} {o : Observation}
    (hrun : operation.perform s = .ok (o, s')) : Tidy s' := by
  by_cases hwithin : operation.staysWithin 1 = true
  · exact ((Holds.stable #[]).perform (h.holds 1) hwithin hrun).tidy
  · cases operation with
    | takeComments =>
        cases hrun
        exact Nat.zero_le _
    | ask request => cases request <;> exact absurd rfl hwithin
    | _ => exact absurd rfl hwithin

/-- In a stream that is reached from the start of a text, the comments that wait are there. -/
theorem Reached.tidy {line : Nat} {text : List Char} (h : Reached line text s) : Tidy s := by
  obtain ⟨n, h⟩ := h
  induction h with
  | start => exact Nat.zero_le _
  | perform _ _ hrun ih => exact ih.perform hrun
  | rewind _ _ _ _ => exact Nat.min_le_right _ _

theorem rewind_comments_eq_iff (s s' : Stream) :
    (s.rewind s').comments = s.comments ↔ s.comments.toList <+: s'.comments.toList := by
  rw [List.prefix_iff_eq_take, ← Array.toList_inj, eq_comm]
  simp only [rewind, Array.toList_extract, List.extract_eq_take_drop, List.drop_zero, Nat.sub_zero,
    Array.length_toList]

/-- Going back to a state restores it if and only if the comments that were there are still the
first ones. -/
theorem rewind_eq_iff (htidy : Tidy s) :
    s.rewind s' = s ↔ s.comments.toList <+: s'.comments.toList := by
  rw [← rewind_comments_eq_iff]
  refine ⟨congrArg Stream.comments, fun h => ?_⟩
  have hunsettled : (s.rewind s').unsettled = s.unsettled := by
    show min s.unsettled (s.rewind s').comments.size = s.unsettled
    rw [h, Nat.min_eq_left htidy]
  calc s.rewind s'
      = { s with
          comments := (s.rewind s').comments, unsettled := (s.rewind s').unsettled } := rfl
    _ = s := by rw [h, hunsettled]

/-- Whether all that is observed from a saved state on is the same after going back to it from
another state. -/
def Restores (s s' : Stream) : Prop :=
  ∀ (moves : List Move) (saved : List Stream),
    trace moves ⟨s.rewind s', saved⟩ = trace moves ⟨s, saved⟩

/-- Everything is restored if and only if the comments are. -/
theorem restores_iff (htidy : Tidy s) :
    Restores s s' ↔ s.comments.toList <+: s'.comments.toList := by
  constructor
  · intro h
    have htaken : ([.ok (.comments (s.rewind s').comments)] : List (Except Fault Observation)) =
        [.ok (.comments s.comments)] :=
      h [.perform .takeComments] []
    rw [← rewind_comments_eq_iff]
    simpa using htaken
  · intro h moves saved
    rw [(rewind_eq_iff htidy).mpr h]

/-- Going back to a saved state restores the tokens and the lines that follow, from whatever state.
It restores the comments as well if and only if those that were there are still the first ones,
which they are if no comment waited when the state was saved and only tokens that were read since
then were given back. -/
theorem rewind_restores {line : Nat} {text : List Char} (hs : Reached line text s) (s' : Stream) :
    (∀ (moves : List Move) (saved : List Stream),
      silentTrace moves ⟨s.rewind s', saved⟩ = silentTrace moves ⟨s, saved⟩) ∧
      (Restores s s' ↔ s.comments.toList <+: s'.comments.toList) ∧
      (AtRest s → ∀ n, Onward Operation.staysWithin s n s' → Restores s s') := by
  refine ⟨fun moves saved => ?_, restores_iff hs.tidy, fun hrest n hon => ?_⟩
  · have hsaved : List.Forall₂ Matches saved saved :=
      List.forall₂_same.mpr fun old _ => .refl old
    exact MatchesSession.silentTrace_eq ⟨Matches.rewind_self s s', hsaved⟩ moves
  · exact (restores_iff hs.tidy).mpr ((Holds.stable _).onward hrest.holds hon).comments

/-- A comment in front of the token read last is restored, although the slash behind the token is
looked at in both operand modes. -/
theorem rewind_restores_bothModes : ∃ s s' : Stream,
    Reached 1 "/*c*/a /b/".toList s ∧ s.comments.size = 1 ∧
      Onward Operation.staysWithin s 1 s' ∧ Restores s s' ∧
      ∀ moves saved, silentTrace moves ⟨s.rewind s', saved⟩ = silentTrace moves ⟨s, saved⟩ := by
  have hruns : (performAll (fun _ _ => true) [.ask (.next false)] 0
      (ofChars 1 "/*c*/a /b/".toList)).any fun (_, s) =>
        s.unsettled == s.comments.size && s.lookahead == 0 && s.comments.size == 1 &&
          (performAll Operation.staysWithin [.ask (.peek false), .ask (.next true)] 0 s).any
            fun (n, _) => n == 1 := by decide +kernel
  simp only [Option.any_eq_true, Bool.and_eq_true, beq_iff_eq, Prod.exists] at hruns
  obtain ⟨_, s, hs, ⟨⟨hsettled, hlookahead⟩, hsize⟩, n, s', hs', rfl⟩ := hruns
  have hreached : Reached 1 "/*c*/a /b/".toList s := ⟨_, Onward.start.performAll hs⟩
  have hrest : AtRest s := ⟨hsettled, hlookahead ▸ trivial⟩
  have honward : Onward Operation.staysWithin s 1 s' := Onward.start.performAll hs'
  obtain ⟨hsilent, -, hrestores⟩ := rewind_restores hreached s'
  exact ⟨s, s', hreached, hsize, honward, hrestores hrest 1 honward, hsilent⟩

/-- When the slash in front of a comment had been given back and is read as the start of a regular
expression, the comment is lost. -/
theorem not_restores_regExp : ¬ ∀ (line : Nat) (text : List Char) (s s' : Stream) (n : Nat),
    Reached line text s → Onward (fun _ operation => operation != .takeComments) s n s' →
      Restores s s' := by
  intro hclaim
  have hruns : (performAll (fun _ _ => true) [.ask (.next false), .ask (.peekSecond false)] 0
      (ofChars 1 "a / /*c*/ b".toList)).any fun (_, s) => s.comments.size == 1 &&
        (performAll (fun _ operation => operation != .takeComments) [.ask (.next true)] 0 s).any
          fun (_, s') => s'.comments.size == 0 := by decide +kernel
  simp only [Option.any_eq_true, Bool.and_eq_true, beq_iff_eq, Prod.exists] at hruns
  obtain ⟨_, s, hs, hsize, n, s', hs', hsize'⟩ := hruns
  have hreached : Reached 1 "a / /*c*/ b".toList s := ⟨_, Onward.start.performAll hs⟩
  have hrestores := hclaim _ _ _ _ _ hreached (Onward.start.performAll hs')
  have hlength := ((restores_iff hreached.tidy).mp hrestores).length_le
  rw [Array.length_toList, Array.length_toList, hsize, hsize'] at hlength
  exact absurd hlength (by decide)

/-! ### Looking through the tokens of a body -/

section Searches

open Hoist

variable {α β : Type} {before : Array Comment} {n m k : Nat}

/-- A search leaves the comments that are held, whether it fails or not. The numbers say how many
tokens can be given back before it and behind it. -/
def Guards (before : Array Comment) (n m : Nat) (p : Search α) : Prop :=
  ∀ s, Holds before n s → before.toList <+: (p s).2.comments.toList ∧
    ∀ a, (p s).1 = .ok a → Holds before m (p s).2

theorem Guards.pure (a : α) : Guards before n n (Pure.pure a : Search α) :=
  fun _ h => ⟨h.comments, fun _ _ => h⟩

theorem Guards.bind {p : Search α} {f : α → Search β} (hp : Guards before n m p)
    (hf : ∀ a, Guards before m k (f a)) : Guards before n k (p >>= f) := by
  intro s h
  obtain ⟨hstart, hheld⟩ := hp s h
  have hbind : (p >>= f) s = ExceptT.bindCont f (p s).1 (p s).2 := rfl
  rw [hbind]
  cases hresult : (p s).1 with
  | ok a => exact hf a _ (hheld a hresult)
  | error fault =>
      refine ⟨hstart, fun a ha => ?_⟩
      cases ha

theorem Guards.forget {p : Search α} (hp : Guards before n (m + 1) p) : Guards before n m p :=
  fun s h => ⟨(hp s h).1, fun a ha => (Holds.stable before).forget ((hp s h).2 a ha)⟩

theorem Guards.giveBack : Guards before (n + 1) n (modify Stream.giveBack : Search Unit) :=
  fun _ h => ⟨h.comments, fun _ _ => (Holds.stable before).giveBack h⟩

theorem Guards.search {reading : Reading α}
    (hok : ∀ s a s', Holds before n s → reading s = .ok (a, s') → Holds before m s')
    (herror : ∀ s fault, reading s = .error fault →
      ∃ operand fault', next operand s = .error fault') :
    Guards before n m (Hoist.search reading) := by
  intro s h
  unfold Hoist.search
  cases hrun : reading s with
  | ok result =>
      obtain ⟨a, s'⟩ := result
      have hheld := hok s a s' h hrun
      exact ⟨hheld.comments, fun _ _ => hheld⟩
  | error fault =>
      obtain ⟨operand, fault', hnext⟩ := herror s fault hrun
      refine ⟨?_, fun a ha => by cases ha⟩
      cases hread : Stream.readFrom operand s.lookahead s with
      | ok result =>
          rw [next_of_readFrom hread] at hnext
          cases hnext
      | error fault => exact Holds.giveUpFrom h hread

theorem guards_next (operand : Bool) : Guards before n (n + 1) (Hoist.search (next operand)) :=
  .search (fun _ _ _ h hrun => h.next hrun) fun _ fault hrun => ⟨operand, fault, hrun⟩

theorem guards_peek (operand : Bool) : Guards before n n (Hoist.search (peek operand)) := by
  refine .search (fun _ _ _ h hrun => (Holds.stable before).peek h hrun) fun s fault hrun => ?_
  cases hnext : next operand s with
  | error fault => exact ⟨operand, fault, hnext⟩
  | ok result =>
      simp only [peek, bind, StateT.bind, hnext, Except.bind] at hrun
      cases hrun

theorem guards_accept (operand : Bool) (p : Punctuator) :
    Guards before n n (Hoist.search (accept operand p)) := by
  refine .search (fun s found s' h hrun => ?_) fun s fault hrun => ?_
  · have hheld := (Holds.stable before).nextIf h hrun
    cases found with
    | true => exact (Holds.stable before).forget hheld
    | false => exact hheld
  · cases hnext : next operand s with
    | error fault => exact ⟨operand, fault, hnext⟩
    | ok result =>
        simp only [accept, nextIf, bind, StateT.bind, hnext, Except.bind] at hrun
        split at hrun <;> cases hrun

theorem guards_skipBalanced (opening closing : Punctuator) (fuel depth : Nat) (operand : Bool) :
    Guards before 0 0 (skipBalanced opening closing fuel depth operand) := by
  induction fuel generalizing depth operand with
  | zero => exact .pure ()
  | succ fuel ih =>
      cases depth with
      | zero => exact .pure ()
      | succ depth =>
          unfold skipBalanced
          refine (guards_next operand).forget.bind fun token => ?_
          split
          · exact .pure ()
          · exact ih _ _

theorem guards_skipFunction (fuel : Nat) : Guards before 0 0 (skipFunction fuel) := by
  unfold skipFunction
  refine (guards_accept _ _).bind fun found => ?_
  split
  · refine (guards_skipBalanced _ _ _ _ _).bind fun _ => (guards_accept _ _).bind fun found => ?_
    split
    · exact guards_skipBalanced _ _ _ _ _
    · exact .pure ()
  · exact .pure ()

theorem guards_functionName (memory : Memory) (bodyStart : Bool) :
    Guards before 0 0 (functionName memory bodyStart) := by
  unfold functionName
  refine (guards_next false).bind fun token => ?_
  split
  · split
    · exact (Guards.pure _).forget
    · exact (Guards.pure _).forget
  · exact Guards.giveBack.bind fun _ => .pure _

theorem guards_name (memory : Memory) (text : String) : Guards before 0 0 (name memory text) := by
  unfold name
  split
  · exact .pure _
  · split
    · refine (guards_peek false).bind fun token => ?_
      split <;> exact .pure _
    · exact .pure _

/-- Whether a computation leaves the comments that are held. -/
def Leaves (before : Array Comment) (p : StateM Stream α) : Prop :=
  ∀ s, Holds before 0 s → before.toList <+: (p s).2.comments.toList

theorem Leaves.pure (a : α) : Leaves before (Pure.pure a : StateM Stream α) :=
  fun _ h => h.comments

theorem Leaves.get_bind {f : Stream → StateM Stream β} (hf : ∀ s, Leaves before (f s)) :
    Leaves before (get >>= f) :=
  fun s h => hf s s h

/-- A search that fails ends what is done. -/
theorem Leaves.run_bind {p : Search α} {f : Except Fault α → StateM Stream β}
    (hp : Guards before 0 0 p) (hok : ∀ a, Leaves before (f (.ok a)))
    (herror : ∀ fault s, (f (.error fault) s).2 = s) : Leaves before (p.run >>= f) := by
  intro s h
  obtain ⟨hstart, hheld⟩ := hp s h
  have hbind : (p.run >>= f) s = f (p s).1 (p s).2 := rfl
  rw [hbind]
  cases hresult : (p s).1 with
  | ok a => exact hok a _ (hheld a hresult)
  | error fault =>
      rw [herror fault]
      exact hstart

theorem leaves_declarations (fuel : Nat) (memory : Memory) :
    Leaves before (declarations fuel memory) := by
  induction fuel generalizing memory with
  | zero => exact .pure _
  | succ fuel ih =>
      unfold declarations
      refine .run_bind (guards_next _).forget (fun token => ?_) fun _ _ => rfl
      dsimp only
      split
      · exact .pure _
      · refine .run_bind (guards_functionName _ _) (fun memory => ?_) fun _ _ => rfl
        refine .run_bind (guards_skipFunction _) (fun _ => ?_) fun _ _ => rfl
        exact .get_bind fun s => ih _
      · exact .run_bind (guards_name _ _) (fun memory => ih _) fun _ _ => rfl
      · split
        · exact .pure _
        · split
          · exact .pure _
          · exact ih _
      · exact ih _
      · exact ih _

/-- Looking through a body reads the same tokens again behind it, and all that is observed is the
same if no comment waits and no token that may have to be scanned again was given back. -/
theorem hoisted_restores (s : Stream) : ∃ found s', hoisted s = .ok (found, s') ∧ Matches s' s ∧
    s'.consumed = s.consumed ∧ (AtRest s → s' = s) := by
  have hleaves : Leaves s.comments (declarations (s.cursor.rest.length + 2) {}) :=
    leaves_declarations _ _
  have hrun : hoisted s = .ok ((declarations (s.cursor.rest.length + 2) {} s).1,
      s.rewind (declarations (s.cursor.rest.length + 2) {} s).2) := rfl
  exact ⟨_, _, hrun, Matches.rewind_self s _, rfl, fun hrest =>
    (rewind_eq_iff hrest.settled.le).mpr (hleaves s hrest.holds)⟩

end Searches

end Stream

end ScriptMin
