import ScriptMin.Grammar.Pattern

/-!
Expressions other than functions: the ladder from the comma expression down to
literals.
-/

namespace ScriptMin.Grammar

/-! ### The upper levels -/

def commaTurn (self : Self) (parts : List Tree) : Production (Turn (List Tree) (List Tree)) := do
  if ← accept .comma then return .again ((← self .assignment) :: parts)
  return .done parts.reverse

def expression (self : Self) : Production Tree := do
  let start := (← peek true).span
  let first ← self .assignment
  unless (← peek false).isPunctuator .comma do return first
  let parts ← repeatTurns [first] (commaTurn self)
  return .ofList .comma (← spanFrom start) parts

def parenExpression (self : Self) : Production Tree := do
  let _ ← expect .openParen
  let inner ← allowIn (expression self)
  let _ ← expect .closeParen
  return inner

/-- Level and kind of a binary operator; higher levels bind tighter. -/
def binaryOperator? : TokenKind → Option (Nat × Kind)
  | .punctuator sign =>
    match sign with
    | .orOr => some (0, .or)
    | .andAnd => some (1, .and)
    | .bar => some (2, .bitOr)
    | .caret => some (3, .bitXor)
    | .amp => some (4, .bitAnd)
    | .eqEq => some (5, .eq)
    | .notEq => some (5, .ne)
    | .eqEqEq => some (5, .strictEq)
    | .notEqEq => some (5, .strictNe)
    | .less => some (6, .lt)
    | .lessEq => some (6, .le)
    | .greater => some (6, .gt)
    | .greaterEq => some (6, .ge)
    | .shiftLeft => some (7, .shiftLeft)
    | .shiftRight => some (7, .shiftRight)
    | .shiftRightZero => some (7, .shiftRightZero)
    | .plus => some (8, .plus)
    | .minus => some (8, .minus)
    | .star => some (9, .times)
    | .slash => some (9, .divide)
    | .percent => some (9, .modulo)
    | _ => none
  | .keyword .kwIn => some (6, .isIn)
  | .keyword .kwInstanceof => some (6, .instanceOf)
  | _ => none

def binaryLevels : Nat := 10

/-- Applies the next operator of a level, if there is one. The given number of levels are
tighter. -/
def binaryTurn (operand : Production Tree) (tighter : Nat) (start : Span) (left : Tree) :
    Production (Turn Tree Tree) := do
  let token ← peek false
  match binaryOperator? token.kind with
  | some (level, op) =>
    if level + tighter + 1 = binaryLevels ∧ ¬ (op = .isIn ∧ (← read).noIn) then
      let _ ← next false
      let right ← operand
      return .again (.ofList op (← spanFrom start) [left, right])
    return .done left
  | none => return .done left

/-- Binary operators of the given number of tightest levels. All of them associate to
the left. -/
def binary (self : Self) : Nat → Production Tree
  | 0 => self .unary
  | n + 1 => do
    let start := (← peek true).span
    let first ← binary self n
    repeatTurns first (binaryTurn (binary self n) n start)

def conditional (self : Self) : Production Tree := do
  let start := (← peek true).span
  let condition ← binary self binaryLevels
  unless ← accept .question do return condition
  let thenPart ← allowIn (self .assignment)
  let _ ← expect .colon
  let elsePart ← self .assignment
  return .ofList .conditional (← spanFrom start) [condition, thenPart, elsePart]

/-- Whether a token cannot start the value of a `yield`. -/
def endsYield : TokenKind → Bool
  | .newline | .endOfInput => true
  | .punctuator sign =>
    (sign matches .closeParen | .closeBracket | .closeBrace | .comma | .semicolon | .colon)
  | _ => false

def yieldExpression (self : Self) : Production Tree := do
  let token ← next true
  unless (← read).inFunction do reject .yieldOutsideFunction token.span.line
  let following ← peekOnLine true
  let value ← if endsYield following.kind then pure [] else do pure [← self .assignment]
  return .ofList .yieldOf (← spanFrom token.span) value

def isAssignable (op : Option Kind) (t : Tree) : Bool :=
  match Target.of t with
  | .simple | .call => true
  | .pattern => op.isNone
  | .invalid => false

def assignment (self : Self) : Production Tree := do
  let first ← peek true
  if first.isKeyword .kwYield then return ← yieldExpression self
  let target ← conditional self
  let token ← peek false
  unless token.isPunctuator .assign do return target
  let _ ← next false
  let op := (token.assignOp.bind fun p => binaryOperator? (.punctuator p)).map (·.2)
  unless isAssignable op target do reject .badAssignmentTarget token.span.line
  let value ← self .assignment
  let span ← spanFrom first.span
  return .node { kind := .assign, span, assignOp := op } [target, value]

/-! ### Unary operators -/

def unaryOperator? : TokenKind → Option Kind
  | .punctuator .bang => some .not
  | .punctuator .tilde => some .bitNot
  | .punctuator .plus => some .unaryPlus
  | .punctuator .minus => some .unaryMinus
  | .keyword .kwDelete => some .delete
  | .keyword .kwVoid => some .voidOf
  | .keyword .kwTypeof => some .typeOf
  | _ => none

def updateOperator? : TokenKind → Option Kind
  | .punctuator .plusPlus => some .increment
  | .punctuator .minusMinus => some .decrement
  | _ => none

def checkUpdateTarget (operand : Tree) (line : Nat) : Production Unit :=
  match Target.of operand with
  | .simple | .call => return
  | _ => reject .badUpdateTarget line

/-- Unary operators, and increments behind their operand, which have to stand on its
line. -/
def unary (self : Self) : Production Tree := do
  let token ← next true
  if let some op := unaryOperator? token.kind then
    let operand ← self .unary
    return .ofList op (← spanFrom token.span) [operand]
  if let some op := updateOperator? token.kind then
    let operand ← self .unary
    checkUpdateTarget operand token.span.line
    return .ofList op (← spanFrom token.span) [operand]
  unread
  let operand ← self (.member true)
  let following ← peekOnLine false
  match updateOperator? following.kind with
  | some op =>
    let _ ← next false
    checkUpdateTarget operand following.span.line
    let span ← spanFrom token.span
    return .node { kind := op, span, flags := { trailing := true } } [operand]
  | none => return operand

/-! ### Comprehensions -/

def comprehensionFor (self : Self) : Production Tree := do
  let start := (← get).token.span
  let each ← acceptEach
  let _ ← expect .openParen
  let iterator ← binding self .comprehensionVariable
  let _ ← expectWord .kwIn
  let object ← allowIn (expression self)
  let _ ← expect .closeParen
  let span ← spanFrom start
  return .node { kind := .forIn, span, flags := { each } }
    [iterator.withRole .iterator, object.withRole .object]

def comprehensionTail (self : Self) : Production Tree := do
  let start := (← peek false).span
  let clauses ← repeatTurns [] fun clauses => do
    if ← acceptWord .kwFor then return .again ((← comprehensionFor self) :: clauses)
    return .done clauses.reverse
  let guard ← if ← acceptWord .kwIf then some <$> parenExpression self else pure none
  return .ofList .compTail (← spanFrom start) (clauses ++ Tree.part .guard guard)

def comprehension (kind : Kind) (value tail : Tree) (span : Span) : Tree :=
  .ofList kind span [value.withRole .expression, tail.withRole .tail]

/-! ### Member access and calls -/

/-- The next argument of a call. A generator as the only argument needs no parentheses of
its own. -/
def argumentTurn (self : Self) (args : List Tree) : Production (Turn (List Tree) (List Tree)) := do
  let start := (← peek true).span
  let value ← self .assignment
  let following ← peek false
  let argument ←
    if following.isKeyword .kwFor then do
      let tail ← comprehensionTail self
      let generator := comprehension .generator value tail (← spanFrom start)
      unless args.isEmpty do reject .bareGenerator following.span.line
      unless (← peek false).isPunctuator .closeParen do
        reject .bareGenerator following.span.line
      pure generator
    else pure value
  if ← accept .comma then return .again (argument :: args)
  return .done (argument :: args).reverse

def arguments (self : Self) : Production (List Tree) := allowIn do
  if ← accept .closeParen then return []
  let args ← repeatTurns [] (argumentTurn self)
  let _ ← expect .closeParen
  return args

/-- The next dot, bracket or, if allowed, call behind a member access. -/
def suffixTurn (self : Self) (calls : Bool) (start : Span) (object : Tree) :
    Production (Turn Tree Tree) := do
  let token ← next false
  match token.kind with
  | .punctuator .dot =>
    let nameToken ← next false
    match nameToken.kind.propertyName? with
    | some name => return .again (.member object name (← spanFrom start))
    | none => unexpected .propertyName nameToken
  | .punctuator .openBracket =>
    let index ← allowIn (expression self)
    let _ ← expect .closeBracket
    return .again (.ofList .index (← spanFrom start) [object, index])
  | .punctuator .openParen =>
    if calls then
      let args ← arguments self
      return .again (.call object args (← spanFrom start))
    unread
    return .done object
  | _ =>
    unread
    return .done object

def memberSuffixes (self : Self) (calls : Bool) (start : Span) (first : Tree) :
    Production Tree :=
  repeatTurns first (suffixTurn self calls start)

/-! ### Literals -/

/-- What stands in the brackets of an array literal or of a comprehension. -/
abbrev Elements := List (Option Tree) ⊕ Tree × Tree

/-- The next element of an array literal, or the tail of a comprehension behind the first
one. -/
def elementTurn (self : Self) (elements : List (Option Tree)) :
    Production (Turn (List (Option Tree)) Elements) := do
  let token ← peek true
  if token.isPunctuator .closeBracket then
    let _ ← next true
    return .done (.inl elements.reverse)
  if token.isPunctuator .comma then
    let _ ← next true
    return .again (none :: elements)
  let element ← self .assignment
  if elements.isEmpty then
    if (← peek false).isKeyword .kwFor then
      let tail ← comprehensionTail self
      let _ ← expect .closeBracket
      return .done (.inr (element, tail))
  let elements := some element :: elements
  let after ← next false
  if after.isPunctuator .closeBracket then return .done (.inl elements.reverse)
  if after.isPunctuator .comma then return .again elements
  unexpected .commaOrBracket after

/-- Elements of an array literal up to its closing bracket, or the value and tail of an
array comprehension. -/
def arrayElements (self : Self) : Production Elements := repeatTurns [] (elementTurn self)

/-- An array literal or comprehension, its opening bracket being read. -/
def arrayLiteral (self : Self) (start : Span) : Production Tree := do
  match ← arrayElements self with
  | .inl elements => return .arrayInit elements (← spanFrom start)
  | .inr (value, tail) => return comprehension .arrayComp value tail (← spanFrom start)

def parenthesized (self : Self) (start : Span) : Production Tree := do
  let value ← expression self
  let value ←
    if (← peek false).isKeyword .kwFor then do
      let tail ← comprehensionTail self
      pure (comprehension .generator value tail (← spanFrom start))
    else pure value
  let _ ← expect .closeParen
  return value.parenthesize

end ScriptMin.Grammar
