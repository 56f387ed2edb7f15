import ScriptMin.Grammar.Function

/-!
Statements. Where a production is given a start, the word or sign that stands there has been read.
-/

namespace ScriptMin.Grammar

def statementIn (self : Self) (frame : Frame) : Production Tree := inside frame (self .statement)

def block (self : Self) (start : Span) : Production Tree := inside .other do
  let statements ← statementsToBrace self
  return .ofList .block (← spanFrom start) statements

def bracedBlock (self : Self) : Production Tree := do
  let start := (← expect .openBrace).span
  block self start

def expressionStatement (self : Self) (start : Span) : Production Tree := do
  let value ← expression self
  endStatement
  return .ofList .semicolon (← spanFrom start) [value.withRole .expression]

def ifStatement (self : Self) (start : Span) : Production Tree := do
  let condition ← parenExpression self
  let thenPart ← statementIn self .other
  let elsePart ←
    if ← Stream.acceptWord true .kwElse then some <$> statementIn self .other else pure none
  return .ofList .ifElse (← spanFrom start)
    ([condition.withRole .condition, thenPart.withRole .thenPart] ++ Tree.part .elsePart elsePart)

/-- Statements of a clause, up to the next clause or the closing brace. -/
def clauseStatements (self : Self) : Production (List Tree) :=
  repeatTurns [] fun statements => do
    let token ← peek true
    if token.isKeyword .kwCase ∨ token.isKeyword .kwDefault ∨ token.isPunctuator .closeBrace then
      return .done statements.reverse
    if token.kind = .endOfInput then reject .unexpectedEnd token.span.line
    return .again ((← self .statement) :: statements)

def clause (self : Self) (start : Span) (label : Option Tree) : Production Tree := do
  let _ ← expect .colon
  let statements ← clauseStatements self
  let span ← spanFrom start
  let body := (Tree.ofList .block span statements).withRole .statements
  match label with
  | some label => return .ofList .caseClause span [label.withRole .label, body]
  | none => return .ofList .defaultClause span [body]

def clauses (self : Self) : Production (List Tree) :=
  repeatTurns (([] : List Tree), false) fun (clauses, hasDefault) => do
    let token ← next true
    match token.kind with
    | .punctuator .closeBrace => return .done clauses.reverse
    | .keyword .kwCase =>
      let label ← expression self
      return .again ((← clause self token.span (some label)) :: clauses, hasDefault)
    | .keyword .kwDefault =>
      if hasDefault then reject .secondDefault token.span.line
      return .again ((← clause self token.span none) :: clauses, true)
    | _ => unexpected .caseOrEnd token

def switchStatement (self : Self) (start : Span) : Production Tree := do
  let discriminant ← parenExpression self
  let _ ← expect .openBrace
  let clauses ← inside .switch (clauses self)
  return .ofList .switchCase (← spanFrom start) (discriminant.withRole .discriminant :: clauses)

/-! ### Loops -/

def forSetup (self : Self) (token : Token) : Production (Tree × Option Declarations) := forbidIn do
  let kind? : Option Kind := match token.kind with
    | .keyword .kwVar => some .varList
    | .keyword .kwConst => some .constList
    | .keyword .kwLet => some .letList
    | _ => none
  match kind? with
  | some kind =>
    let start := (← next true).span
    let list ← declarations self start kind false
    return (list.tree, some list)
  | none => return (← expression self, none)

/-- Refuses what cannot run through the keys of an object. -/
def checkForInTarget (iterator : Tree) (declared : Option Declarations) (line : Nat) :
    Production Unit := do
  let valid : Bool := match declared with
    | some list => list.count == 1
    | none => Target.of iterator != .invalid
  unless valid do reject .badForInTarget line

/-- A part of a `for` head, absent if the given sign comes first. -/
def optionalPart (self : Self) (ending : Punctuator) : Production (Option Tree) := do
  let part ←
    if (← peek true).isPunctuator ending then pure none else some <$> expression self
  let _ ← expect ending
  return part

def forStatement (self : Self) (start : Span) : Production Tree := do
  let each ← acceptEach
  let _ ← expect .openParen
  let token ← peek true
  let (setup, declared) ←
    if token.isPunctuator .semicolon then pure (none, none)
    else do
      let (setup, declared) ← forSetup self token
      pure (some setup, declared)
  if ← acceptWord .kwIn then
    let some iterator := setup | reject .missingIterator start.line
    checkForInTarget iterator declared start.line
    let object ← expression self
    let _ ← expect .closeParen
    let body ← statementIn self .loop
    let span ← spanFrom start
    return .node { kind := .forIn, span, flags := { each } }
      [iterator.withRole .iterator, object.withRole .object, body.withRole .body]
  if each then reject .badForEach start.line
  if declared.any (·.openPattern) then reject .uninitializedPattern start.line
  let _ ← expect .semicolon
  let condition ← optionalPart self .semicolon
  let update ← optionalPart self .closeParen
  let body ← statementIn self .loop
  return .ofList .forLoop (← spanFrom start)
    (Tree.part .setup setup ++ Tree.part .condition condition ++ Tree.part .update update ++
      [body.withRole .body])

def whileStatement (self : Self) (start : Span) : Production Tree := do
  let condition ← parenExpression self
  let body ← statementIn self .loop
  return .ofList .whileLoop (← spanFrom start)
    [condition.withRole .condition, body.withRole .body]

/-- A `do` statement, its first word being read. The semicolon behind it may be left out
anywhere. -/
def doStatement (self : Self) (start : Span) : Production Tree := do
  let body ← statementIn self .loop
  let _ ← expectWord .kwWhile
  let condition ← parenExpression self
  let _ ← accept .semicolon
  return .ofList .doLoop (← spanFrom start)
    [body.withRole .body, condition.withRole .condition]

/-! ### Jumps -/

def Frame.isLabel : Frame → Bool
  | .label _ => true
  | _ => false

/-- Why a jump has no target among the given constructs, if it has none. A labelled
`continue` needs a loop right inside the label. -/
def jumpFault? (frames : List Frame) (isContinue : Bool) : Option String → Option GrammarCause
  | none =>
    if frames.contains .loop ∨ (¬ isContinue ∧ frames.contains .switch) then none
    else if isContinue then some .continueOutsideLoop
    else some .breakOutsideLoop
  | some label =>
    if ¬ frames.contains (.label label) then some (.labelNotFound label)
    else
      let inner := (frames.takeWhile (· ≠ .label label)).reverse
      if isContinue ∧ inner.find? (fun f => !f.isLabel) ≠ some .loop then some (.labelNotLoop label)
      else none

/-- A `break` or `continue`, its first word being read. A label has to stand on its line. -/
def jumpStatement (start : Span) (isContinue : Bool) : Production Tree := do
  let label ←
    match (← peekOnLine false).kind with
    | .identifier name => do
      let _ ← next false
      pure (some name)
    | _ => pure none
  if let some cause := jumpFault? (← read).frames isContinue label then reject cause start.line
  endStatement
  let span ← spanFrom start
  let payload := match label with
    | some name => Payload.text name
    | none => .none
  return .node { kind := if isContinue then .continueStmt else .breakStmt, span, payload } []

/-- A `return`, its first word being read. A value has to start on its line. -/
def returnStatement (self : Self) (start : Span) : Production Tree := do
  unless (← read).inFunction do reject .returnOutsideFunction start.line
  let following ← peekOnLine true
  let value ←
    match following.kind with
    | .newline | .endOfInput | .punctuator .semicolon | .punctuator .closeBrace => pure none
    | _ => some <$> expression self
  endStatement
  return .ofList .returnStmt (← spanFrom start) (Tree.part .value value)

/-! ### Other statements -/

/-- One `catch` clause, its first word being read, and whether it has a guard. -/
def catchClause (self : Self) (start : Span) : Production (Tree × Bool) := do
  let _ ← expect .openParen
  let exception ← binding self .catchVariable
  let guard ← if ← acceptWord .kwIf then some <$> expression self else pure none
  let _ ← expect .closeParen
  let body ← bracedBlock self
  return (.ofList .catchClause (← spanFrom start)
    ([exception.withRole .exception] ++ Tree.part .guard guard ++ [body.withRole .block]),
    guard.isSome)

/-- The `catch` clauses of a `try`. None may follow one without a guard. -/
def catchClauses (self : Self) : Production (List Tree) :=
  repeatTurns (([] : List Tree), false) fun (clauses, final) => do
    unless ← acceptWord .kwCatch do return .done clauses.reverse
    let start := (← get).token.span
    if final then reject .unreachableCatch start.line
    let (clause, guarded) ← catchClause self start
    return .again (clause :: clauses, !guarded)

def tryStatement (self : Self) (start : Span) : Production Tree := do
  let body ← bracedBlock self
  let catches ← catchClauses self
  let finally? ← if ← acceptWord .kwFinally then some <$> bracedBlock self else pure none
  if catches.isEmpty ∧ finally?.isNone then reject .bareTry start.line
  return .ofList .tryCatch (← spanFrom start)
    ([body.withRole .tryBlock] ++ catches ++ Tree.part .finallyBlock finally?)

def labelStatement (self : Self) (start : Span) (label : String) : Production Tree := do
  if (← read).frames.contains (.label label) then reject (.duplicateLabel label) start.line
  let statement ← statementIn self (.label label)
  let span ← spanFrom start
  return .node { kind := .label, span, payload := .text label } [statement.withRole .statement]

/-- A list of declarations as a statement, its first word being read. -/
def declarationStatement (self : Self) (start : Span) (kind : Kind) : Production Tree := do
  let list ← declarations self start kind true
  if list.openPattern then reject .uninitializedPattern start.line
  endStatement
  return list.tree

/-- A `let` block or a statement of a `let` expression, its first word being read. -/
def letStatement (self : Self) (start : Span) : Production Tree := do
  let bindings := (← letHead self start).withRole .bindings
  if (← peek true).isPunctuator .openBrace then
    let body ← block self (← next true).span
    return .ofList .letBlock (← spanFrom start) [bindings, body.withRole .block]
  let value ← self .assignment
  let tree := Tree.ofList .letBlock (← spanFrom start) [bindings, value.withRole .expression]
  endStatement
  return .ofList .semicolon (← spanFrom start) [tree.withRole .expression]

def declaredForm (e : Surroundings) : FunctionForm :=
  if !e.frames.isEmpty && e.hoisted.all (·.nestedFunctions) then .nested else .declared

def bareStatement (self : Self) : Production Tree := do
  let token ← next true
  let start := token.span
  match token.kind with
  | .keyword .kwFunction => function self start (declaredForm (← read)) true
  | .punctuator .openBrace => block self start
  | .punctuator .semicolon => return .leaf .semicolon start
  | .keyword .kwIf => ifStatement self start
  | .keyword .kwSwitch => switchStatement self start
  | .keyword .kwFor => forStatement self start
  | .keyword .kwWhile => whileStatement self start
  | .keyword .kwDo => doStatement self start
  | .keyword .kwBreak => jumpStatement start false
  | .keyword .kwContinue => jumpStatement start true
  | .keyword .kwTry => tryStatement self start
  | .keyword .kwThrow =>
    let exception ← expression self
    endStatement
    return .ofList .throwStmt (← spanFrom start) [exception.withRole .exception]
  | .keyword .kwReturn => returnStatement self start
  | .keyword .kwWith =>
    let object ← parenExpression self
    let body ← statementIn self .other
    return .ofList .withStmt (← spanFrom start) [object.withRole .object, body.withRole .body]
  | .keyword .kwDebugger =>
    endStatement
    return .leaf .debuggerStmt (← spanFrom start)
  | .keyword .kwVar => declarationStatement self start .varList
  | .keyword .kwConst => declarationStatement self start .constList
  | .keyword .kwLet =>
    if (← peek false).isPunctuator .openParen then letStatement self start
    else declarationStatement self start .letList
  | .keyword .kwCatch => reject (.withoutTry .kwCatch) start.line
  | .keyword .kwFinally => reject (.withoutTry .kwFinally) start.line
  | .identifier name =>
    if (← peek false).isPunctuator .colon then
      let _ ← next false
      labelStatement self start name
    else
      unread
      expressionStatement self start
  | _ =>
    unread
    expressionStatement self start

def statement (self : Self) : Production Tree := do
  let _ ← peek true
  let comments ← Stream.takeComments
  return (← bareStatement self).attach comments.toList

end ScriptMin.Grammar
