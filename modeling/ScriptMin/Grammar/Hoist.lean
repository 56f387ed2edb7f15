import ScriptMin.Token.Stream

/-!
Hoisted declarations. Before a body is parsed, its tokens are looked through for the
names that `var` declares anywhere in it and for the functions it declares, so that a
`let` or `const` can be refused where it stands. Only brackets, a few reserved words
and line breaks are taken notice of; nothing is parsed, and nothing is consumed.
-/

namespace ScriptMin

/-- What a body declares for all of its statements. -/
structure Hoisted where
  /-- Names declared by `var`, at any depth outside nested functions. -/
  vars : List String := []
  /-- Functions declared in the statement list of the body. -/
  functions : List String := []
  /-- Whether functions are declared below the statement list. -/
  nestedFunctions : Bool := false
  deriving DecidableEq, Repr, Inhabited

def Hoisted.declares (h : Hoisted) (name : String) : Bool :=
  h.vars.contains name || h.functions.contains name

namespace Hoist

/-- What is remembered between two tokens. -/
structure Memory where
  found : Hoisted := {}
  /-- Number of open brackets of all sorts. -/
  depth : Int := 0
  /-- Number of open braces. -/
  braces : Nat := 0
  previous : Option TokenKind := none
  previousLine : Nat := 0
  /-- Depth of the `var` list in progress. -/
  varDepth : Option Int := none
  /-- Depth of the pattern in progress. -/
  patternDepth : Option Int := none
  /-- Whether the next token is a declared name or opens a pattern. -/
  nameExpected : Bool := false
  /-- Depths of the open headers of `if`, `for`, `while` and `with`, innermost first. -/
  headers : List Int := []
  /-- Whether the parenthesis of a header is still to come. -/
  headerPending : Bool := false
  /-- Whether a header has just ended. -/
  headerEnded : Bool := false
  deriving DecidableEq, Repr, Inhabited

/-- Whether a token at the start of a line continues the expression before it. -/
def continuesExpression : TokenKind → Bool
  | .punctuator sign =>
    !(sign matches .plusPlus | .minusMinus | .bang | .tilde | .openBrace | .closeBrace)
  | .keyword word => (word matches .kwIn | .kwInstanceof)
  | _ => false

/-- Whether a function behind the given token can be a declaration. -/
def isStatementStart : Option TokenKind → Bool
  | none => true
  | some (.punctuator sign) => (sign matches .semicolon | .openBrace | .closeBrace | .closeParen)
  | some (.keyword word) => (word matches .kwElse | .kwDo)
  | _ => false

def introducesStatement : Option TokenKind → Bool
  | some (.keyword word) => (word matches .kwElse | .kwDo)
  | _ => false

namespace Memory

def wantsOperand (m : Memory) : Bool := m.previous.all TokenKind.operandAfter

/-- Ends the `var` list if a line break before the given token ends its statement. -/
def endAtLineBreak (m : Memory) (t : Token) : Memory :=
  if m.varDepth = some m.depth ∧ m.patternDepth.isNone ∧ t.span.line > m.previousLine ∧
      m.previous.any (fun p => !p.operandAfter) ∧ ¬ continuesExpression t.kind then
    { m with varDepth := none }
  else m

def openPattern (m : Memory) : Memory :=
  if m.nameExpected ∧ m.patternDepth.isNone then { m with patternDepth := some m.depth } else m

/-- Ends the pattern in progress if its bracket has just been closed. -/
def closePattern (m : Memory) : Memory :=
  if m.patternDepth = some m.depth then { m with patternDepth := none } else m

/-- Ends the `var` list in progress if it stands at the current depth. -/
def endVars (m : Memory) : Memory :=
  if m.varDepth = some m.depth then { m with varDepth := none } else m

def openHeader (m : Memory) : Memory :=
  if m.headerPending then { m with headers := m.depth :: m.headers, headerPending := false } else m

def closeHeader (m : Memory) : Memory :=
  if m.headers.head? = some m.depth then
    { m with headers := m.headers.tail, headerEnded := true }
  else m

/-- Takes notice of a punctuator, and says whether a name follows. -/
def sign (m : Memory) : Punctuator → Memory × Bool
  | .openParen =>
    let m := m.openPattern.openHeader
    ({ m with depth := m.depth + 1 }, false)
  | .openBracket =>
    let m := m.openPattern
    ({ m with depth := m.depth + 1 }, false)
  | .openBrace =>
    let m := m.openPattern
    ({ m with depth := m.depth + 1, braces := m.braces + 1 }, false)
  | .closeParen | .closeBracket =>
    ({ m with depth := m.depth - 1 }.closePattern.closeHeader, false)
  | .closeBrace =>
    ({ m with depth := m.depth - 1, braces := m.braces - 1 }.closePattern, false)
  | .semicolon => (m.endVars, false)
  | .comma => (m, m.varDepth = some m.depth ∧ m.patternDepth.isNone)
  | _ => (m, false)

/-- Takes notice of a reserved word, and says whether a name follows. -/
def word (m : Memory) : Keyword → Memory × Bool
  | .kwIf | .kwFor | .kwWhile | .kwWith => ({ m with headerPending := true }, false)
  | .kwVar => ({ m with varDepth := some m.depth }, true)
  | .kwIn => (m.endVars, false)
  | _ => (m, false)

def declare (m : Memory) (name : String) : Memory :=
  { m with found := { m.found with vars := name :: m.found.vars } }

def declareFunction (m : Memory) (below : Bool) (name : String) : Memory :=
  if below then { m with found := { m.found with nestedFunctions := true } }
  else { m with found := { m.found with functions := name :: m.found.functions } }

def finish (m : Memory) (t : Token) (nameFollows : Bool) : Memory :=
  { m with
    patternDepth := if m.varDepth.isNone then none else m.patternDepth
    nameExpected := nameFollows
    previousLine := t.endLine
    previous := some t.kind }

end Memory

/-- Computations that look through tokens. They keep the stream where the text cannot
be scanned. -/
abbrev Search := ExceptT Fault (StateM Stream)

/-- Runs a reading that can fail at its first token only. -/
def search {α : Type} (reading : Reading α) : Search α := fun s =>
  match reading s with
  | .ok (a, s) => (.ok a, s)
  | .error fault => (.error fault, s.giveUp)

/-- Reads on to the closing bracket of an open one. -/
def skipBalanced (opening closing : Punctuator) : Nat → Nat → Bool → Search Unit
  | 0, _, _ | _, 0, _ => return
  | fuel + 1, depth + 1, operand => do
    let token ← search (Stream.next operand)
    if token.kind = .endOfInput then return
    let depth :=
      if token.isPunctuator opening then depth + 2
      else if token.isPunctuator closing then depth
      else depth + 1
    skipBalanced opening closing fuel depth token.kind.operandAfter

def skipFunction (fuel : Nat) : Search Unit := do
  if ← search (Stream.accept false .openParen) then
    skipBalanced .openParen .closeParen fuel 1 true
    if ← search (Stream.accept false .openBrace) then
      skipBalanced .openBrace .closeBrace fuel 1 true

/-- Reads the name of a function and records it where it is a declaration. -/
def functionName (m : Memory) (bodyStart : Bool) : Search Memory := do
  match (← search (Stream.next false)).kind with
  | .identifier name =>
    if isStatementStart m.previous then
      return m.declareFunction (m.braces ≠ 0 ∨ bodyStart ∨ introducesStatement m.previous) name
    return m
  | _ =>
    modify Stream.giveBack
    return m

def name (m : Memory) (text : String) : Search Memory := do
  if m.nameExpected ∧ m.varDepth.isSome then return m.declare text
  if m.patternDepth.isSome then
    unless (← search (Stream.peek false)).isPunctuator .colon do return m.declare text
  return m

/-- Looks through the tokens of a body. A text that cannot be scanned ends the search
with what was found before. -/
def declarations : Nat → Memory → StateM Stream Hoisted
  | 0, m => return m.found
  | fuel + 1, m => do
    let .ok token ← (search (Stream.next m.wantsOperand)).run | return m.found
    let bodyStart := m.headerEnded
    let m := { m with headerEnded := false }.endAtLineBreak token
    match token.kind with
    | .endOfInput => return m.found
    | .keyword .kwFunction =>
      let .ok m ← (functionName m bodyStart).run | return m.found
      let .ok () ← (skipFunction fuel).run | return m.found
      declarations fuel
        { m with
          previous := some (.punctuator .closeBrace)
          previousLine := (← get).token.endLine
          nameExpected := false }
    | .identifier text =>
      let .ok m ← (name m text).run | return m.found
      declarations fuel (m.finish token false)
    | .punctuator p =>
      if p = .closeBrace ∧ m.braces = 0 then return m.found
      let (m, nameFollows) := m.sign p
      if m.depth < 0 then return m.found
      declarations fuel (m.finish token nameFollows)
    | .keyword k =>
      let (m, nameFollows) := m.word k
      declarations fuel (m.finish token nameFollows)
    | _ => declarations fuel (m.finish token false)

end Hoist

/-- The hoisted declarations of the body that starts here. The stream goes back to
where it was. -/
def Stream.hoisted : Reading Hoisted := do
  let saved ← get
  let found ← modifyGet (Hoist.declarations (saved.cursor.rest.length + 2) {})
  modify (rewind saved)
  return found

end ScriptMin
