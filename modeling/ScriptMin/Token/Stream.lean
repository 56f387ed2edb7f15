import ScriptMin.Comment
import ScriptMin.Token.Cursor
import ScriptMin.Token.Lexeme

/-!
The token stream: scans tokens on demand and keeps the last four in a ring, so that
up to three of them can be given back. Comments met on the way are collected. A
token given back is scanned again when it is wanted in the other operand mode.
-/

namespace ScriptMin

/-- A token kept in the ring, with the place it was scanned at and the number of
comments that had been collected by then. -/
structure Slot where
  token : Token
  place : Cursor
  commentCount : Nat
  deriving DecidableEq, Repr

structure Stream where
  /-- Where scanning goes on. -/
  cursor : Cursor
  slots : Vector Slot 4
  /-- The slot of the token read last. -/
  current : Fin 4
  /-- How many tokens behind the current one were given back. -/
  lookahead : Nat
  /-- Whether line breaks are tokens. -/
  newlines : Bool
  comments : Array Comment
  /-- The comments from here on wait for the next token to be settled. -/
  unsettled : Nat
  /-- Line on which the last token ended, zero before the first one. -/
  lastCodeLine : Nat
  /-- Line on which the last token or comment ended. -/
  lastLine : Nat
  /-- The tokens that were read and not given back, the last one first. Nothing that is
  read depends on them. -/
  consumed : List Token
  deriving Repr

/-- Computations that read tokens and may reject the text. -/
abbrev Reading := StateT Stream (Except Fault)

namespace Stream

/-- The stream of a source text whose first line has the given number. -/
def ofChars (line : Nat) (text : List Char) : Stream :=
  let cursor := Cursor.start line text
  { cursor
    slots := Vector.replicate 4 ⟨Token.initial, cursor, 0⟩
    current := 0
    lookahead := 0
    newlines := false
    comments := #[]
    unsettled := 0
    lastCodeLine := 0
    lastLine := line - 1
    consumed := [] }

def slot (s : Stream) : Slot := s.slots.get s.current

def token (s : Stream) : Token := s.slot.token

def line (s : Stream) : Nat := s.cursor.line

/-! ### Scanning -/

def commentContext (s : Stream) (line : Nat) : CommentContext :=
  if s.lastCodeLine > 0 ∧ line = s.lastCodeLine then .inline
  else if line > Text.nextLine s.lastLine then .heading
  else .block

def collect (s : Stream) (length : Nat) : Stream :=
  let line := s.cursor.line
  let cursor := s.cursor.advance length
  let text := String.ofList (s.cursor.rest.take length)
  { s with
    cursor
    lastLine := cursor.line
    comments := s.comments.push ⟨text, s.commentContext line, line, cursor.line⟩ }

/-- Passes over what stands between tokens. Line breaks stop it where they are
tokens. -/
def skipGaps : Nat → Stream → Except Fault Stream
  | 0, s => .ok s
  | fuel + 1, s =>
    match Lexeme.gap? s.cursor.rest with
    | none => .ok s
    | some .blank => skipGaps fuel { s with cursor := s.cursor.step }
    | some (.lineBreak length) =>
      if s.newlines then .ok s
      else skipGaps fuel { s with cursor := s.cursor.advance length }
    | some (.comment length) => skipGaps fuel (s.collect length)
    | some .unterminatedComment => .error ⟨.lexical .unterminatedComment, s.cursor.line⟩

/-- Passes over what stands between tokens, up to a comment that does not end. -/
def passGaps : Nat → Stream → Stream
  | 0, s => s
  | fuel + 1, s =>
    match Lexeme.gap? s.cursor.rest with
    | none | some .unterminatedComment => s
    | some .blank => passGaps fuel { s with cursor := s.cursor.step }
    | some (.lineBreak length) =>
      if s.newlines then s else passGaps fuel { s with cursor := s.cursor.advance length }
    | some (.comment length) => passGaps fuel (s.collect length)

/-- Settles the waiting comments by the line of the token behind them. -/
def settle (s : Stream) (tokenLine : Nat) : Stream :=
  if s.unsettled < s.comments.size then
    { s with
      comments := s.comments.mapIdx fun i c =>
        if s.unsettled ≤ i then c.settle tokenLine else c
      unsettled := s.comments.size }
  else { s with unsettled := s.comments.size }

def scanHere (operand : Bool) (s : Stream) : Except Fault (Token × Stream) :=
  let place := s.cursor
  match Lexeme.scan operand place.rest with
  | .error cause => .error ⟨.lexical cause, place.line⟩
  | .ok lexeme =>
    let cursor := place.advance lexeme.length
    let span : Span := ⟨place.line, place.offset, cursor.offset⟩
    let isCode := !(lexeme.kind matches .newline | .endOfInput)
    let token : Token :=
      ⟨lexeme.kind, span, if isCode then cursor.line else place.line, lexeme.assignOp⟩
    let s := { s with cursor }
    let s :=
      if isCode then
        { s.settle place.line with lastCodeLine := cursor.line, lastLine := cursor.line }
      else s
    .ok (token,
      { s with
        slots := s.slots.set s.current ⟨token, place, s.comments.size⟩ s.current.isLt })

/-- Goes back to the start of the current token. What had been read behind it is
dropped. -/
def reopen (s : Stream) : Stream :=
  let slot := s.slot
  let comments := s.comments.extract 0 slot.commentCount
  { s with
    lookahead := 0
    cursor := slot.place
    comments
    unsettled := min s.unsettled comments.size }

/-- Scans a given back token again in the other operand mode. -/
def rescan (operand : Bool) (s : Stream) : Except Fault (Token × Stream) :=
  scanHere operand s.reopen

/-- Reads a token that was given back, or scans a new one when none is left. -/
def readFrom (operand : Bool) : Nat → Stream → Except Fault (Token × Stream)
  | 0, s => do
    let s ← skipGaps (s.cursor.rest.length + 1) { s with lookahead := 0 }
    scanHere operand { s with current := s.current + 1 }
  | n + 1, s =>
    let s := { s with lookahead := n, current := s.current + 1 }
    let token := s.token
    if token.kind = .newline ∧ ¬ s.newlines then readFrom operand n s
    else if token.dependsOnOperand operand then s.rescan operand
    else .ok (token, s)

/-- What is left of the stream where no token can be read: comments were collected in
front of it, or dropped behind a token that was to be scanned again. -/
def giveUpFrom : Nat → Stream → Stream
  | 0, s => passGaps (s.cursor.rest.length + 1) { s with lookahead := 0 }
  | n + 1, s =>
    let s := { s with lookahead := n, current := s.current + 1 }
    if s.token.kind = .newline ∧ ¬ s.newlines then giveUpFrom n s else s.reopen

/-- What is left of the stream where no token can be read. -/
def giveUp (s : Stream) : Stream := giveUpFrom s.lookahead s

def consume (s : Stream) (token : Token) : Stream := { s with consumed := token :: s.consumed }

/-- Reads the next token. `operand` says whether a slash starts a regular
expression there. -/
def next (operand : Bool) : Reading Token := fun s => do
  let (token, s) ← readFrom operand s.lookahead s
  return (token, s.consume token)

def giveBack (s : Stream) : Stream :=
  { s with
    lookahead := s.lookahead + 1, current := s.current - 1, consumed := s.consumed.tail }

def unread : Reading Unit := modify giveBack

def peek (operand : Bool) : Reading Token := do
  let token ← next operand
  unread
  return token

def peekSecond (operand : Bool) : Reading Token := do
  let _ ← next operand
  let token ← next false
  unread
  unread
  return token

/-- The next token, or a line break if one separates it from the current token. -/
def peekOnLine (operand : Bool) : Reading Token := do
  let endLine := (← get).token.endLine
  modify fun s => { s with newlines := true }
  let token ← peek operand
  modify fun s => { s with newlines := false }
  if token.kind ≠ .newline ∧ token.span.line > endLine ∧ endLine > 0 then
    return ⟨.newline, ⟨endLine, token.span.start, token.span.start⟩, endLine, none⟩
  return token

def nextIf (operand : Bool) (test : Token → Bool) : Reading Bool := do
  if test (← next operand) then return true
  unread
  return false

def accept (operand : Bool) (p : Punctuator) : Reading Bool := nextIf operand (·.isPunctuator p)

def acceptWord (operand : Bool) (k : Keyword) : Reading Bool := nextIf operand (·.isKeyword k)

def isDone : Reading Bool := return (← peek false).kind == .endOfInput

/-- Goes back to an earlier state. Comments collected since then are dropped; those
dropped since then do not come back. -/
def rewind (saved s : Stream) : Stream :=
  let comments := s.comments.extract 0 saved.comments.size
  { saved with comments, unsettled := min saved.unsettled comments.size }

def takeComments : Reading (Array Comment) :=
  modifyGet fun s => (s.comments, { s with comments := #[], unsettled := 0 })

/-- Reads tokens up to the end, telling regular expressions from divisions by the
token before. -/
def readAllFrom : Nat → Bool → Array Token → Reading (Array Token)
  | 0, _, tokens => return tokens
  | fuel + 1, operand, tokens => do
    let token ← next operand
    if token.kind = .endOfInput then return tokens
    readAllFrom fuel token.kind.operandAfter (tokens.push token)

def readAll : Reading (Array Token) := do
  let s ← get
  readAllFrom (s.cursor.offset + s.cursor.rest.length + s.lookahead + 1) true #[]

end Stream

end ScriptMin
