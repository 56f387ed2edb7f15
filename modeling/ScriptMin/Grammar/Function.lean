import ScriptMin.Grammar.Expression
import ScriptMin.Tree.Binding

/-!
Functions, accessors, object literals and the primary expressions they are part of. Where a
production is given a start, the word or bracket that stands there has been read.
-/

namespace ScriptMin.Grammar

/-! ### Lists of declarations -/

/-- A list of declarations that has been read. -/
structure Declarations where
  tree : Tree
  count : Nat
  /-- Whether a pattern has no initial value, which only `for`-`in` allows. -/
  openPattern : Bool

def checkRedeclaration (names : List String) (line : Nat) : Production Unit := do
  match (← read).hoisted with
  | none => return
  | some hoisted =>
    match names.find? hoisted.declares with
    | some name => reject (.redeclaration name) line
    | none => return

/-- One declared name or pattern with its initial value, and whether a pattern lacks
one. Redeclarations are checked in the statement list of a body only. -/
def declaration (self : Self) (check : Bool) : Production (Tree × Bool) := do
  let token ← next true
  let (payload, names, target) ←
    match token.kind with
    | .identifier name => pure (Payload.text name, [name], [])
    | .punctuator .openBracket | .punctuator .openBrace => do
      unread
      let target ← self .pattern
      pure (Payload.none, target.boundNames, [target.withRole .names])
    | _ => unexpected .variableName token
  if check ∧ (← read).frames.isEmpty then checkRedeclaration names token.span.line
  let initializer ←
    if ← acceptPlainAssign then do pure [(← self .assignment).withRole .initializer]
    else pure []
  let span ← spanFrom token.span
  return (.node { kind := .declaration, span, payload } (target ++ initializer),
    initializer.isEmpty && !target.isEmpty)

def declarations (self : Self) (start : Span) (kind : Kind) (check : Bool) :
    Production Declarations := do
  let (trees, openPattern) ← repeatTurns (([] : List Tree), false) fun (trees, openPattern) => do
    let (tree, isOpen) ← declaration self (check && kind != .varList)
    let trees := tree :: trees
    let openPattern := openPattern || isOpen
    if ← accept .comma then return .again (trees, openPattern)
    return .done (trees.reverse, openPattern)
  return ⟨.ofList kind (← spanFrom start) trees, trees.length, openPattern⟩

def letHead (self : Self) (start : Span) : Production Tree := do
  let _ ← expect .openParen
  let list ← allowIn (declarations self start .letList false)
  if list.openPattern then reject .uninitializedPattern start.line
  let _ ← expect .closeParen
  return list.tree

/-! ### Functions -/

inductive Accessor where
  | getter
  | setter
  deriving DecidableEq, Repr

/-- Statements up to the closing brace, the opening one being read. -/
def statementsToBrace (self : Self) : Production (List Tree) :=
  repeatTurns [] fun statements => do
    let token ← peek true
    if token.isPunctuator .closeBrace then
      let _ ← next true
      return .done statements.reverse
    if token.kind = .endOfInput then reject .unexpectedEnd token.span.line
    return .again ((← self .statement) :: statements)

/-- Parameters up to the closing parenthesis, the opening one being read. -/
def parameters (self : Self) : Production (List Tree) := do
  if ← accept .closeParen then return []
  repeatTurns [] fun params => do
    let params := (← binding self .parameter) :: params
    if ← accept .closeParen then return .done params.reverse
    let _ ← expect .comma
    return .again params

/-- The body of a function: statements in braces, or a bare expression, which stands for
a body that returns it. -/
def functionBody (self : Self) : Production (Tree × Bool) := do
  unless (← peek false).isPunctuator .openBrace do
    let value ← self .assignment
    let result := Tree.ofList .returnStmt value.span [value.withRole .value]
    return (.ofList .script value.span [result], true)
  let start := (← next false).span
  let hoisted ← Stream.hoisted
  let statements ←
    withReader (fun e => { e with hoisted := some hoisted }) (statementsToBrace self)
  return (.ofList .script (← spanFrom start) statements, false)

def functionRest (self : Self) (start : Span) (name : Option String) (form : FunctionForm)
    (accessor : Option Accessor) : Production Tree := do
  let _ ← expect .openParen
  let params ← parameters self
  let (body, bareBody) ←
    withReader (fun e => { e with frames := [], noIn := false, inFunction := true })
      (functionBody self)
  let span ← spanFrom start
  let flags : Flags :=
    { bareBody, getter := accessor == some .getter, setter := accessor == some .setter }
  let payload := match name with
    | some name => Payload.text name
    | none => .none
  return .node { kind := .function, span, payload, form := some form, flags }
    [(Tree.ofList .list span params).withRole .params, body.withRole .body]

def function (self : Self) (start : Span) (form : FunctionForm) (named : Bool) :
    Production Tree := do
  let name ←
    match (← peek false).kind with
    | .identifier name => do
      let _ ← next false
      pure (some name)
    | _ => pure none
  if named ∧ name.isNone then reject .missingFunctionName start.line
  functionRest self start name form none

/-! ### Object literals -/

def accessorWord? : TokenKind → Option Accessor
  | .identifier "get" => some .getter
  | .identifier "set" => some .setter
  | _ => none

def accessorName : TokenKind → String
  | .string text => text
  | .number value => value.plainText
  | kind => kind.propertyName?.getD ""

/-- One property of an object literal, given its first token. The words `get` and `set`
introduce an accessor if a key follows them. -/
def property (self : Self) (token : Token) : Production Tree := do
  let following ← peek false
  let isKey := following.kind.propertyName?.isSome || following.kind.isLiteralKey
  match accessorWord? token.kind, isKey with
  | some accessor, true =>
    let name := accessorName (← next false).kind
    functionRest self token.span (some name) .expressed (some accessor)
  | _, _ =>
    let key ← propertyKey token
    let _ ← expect .colon
    let value ← self .assignment
    return .ofList .propertyInit (← spanFrom token.span) [key, value]

def propertyTurn (self : Self) (properties : List Tree) :
    Production (Turn (List Tree) (List Tree)) := do
  let token ← next false
  if token.isPunctuator .closeBrace then return .done properties.reverse
  let properties := (← property self token) :: properties
  let after ← next false
  if after.isPunctuator .closeBrace then return .done properties.reverse
  if after.isPunctuator .comma then return .again properties
  unexpected .commaOrBrace after

def objectLiteral (self : Self) (start : Span) : Production Tree := do
  let properties ← repeatTurns [] (propertyTurn self)
  return .ofList .objectInit (← spanFrom start) properties

/-! ### Primary expressions -/

def primary (self : Self) : Production Tree := do
  let token ← next true
  let start := token.span
  match token.kind with
  | .keyword .kwFunction => function self start .expressed false
  | .punctuator .openBracket => allowIn (arrayLiteral self start)
  | .punctuator .openBrace => allowIn (objectLiteral self start)
  | .punctuator .openParen => allowIn (parenthesized self start)
  | .keyword .kwLet =>
    let bindings ← letHead self start
    let value ← self .assignment
    return .ofList .letBlock (← spanFrom start)
      [bindings.withRole .bindings, value.withRole .expression]
  | .keyword .kwThis => return .leaf .thisRef start
  | .keyword .kwTrue => return .leaf .trueLit start
  | .keyword .kwFalse => return .leaf .falseLit start
  | .keyword .kwNull => return .leaf .nullLit start
  | .identifier name => return .identifier name start
  | .number value => return .number value start
  | .string text => return .textLeaf .string text start
  | .regExp source => return .textLeaf .regExp source start
  | _ => unexpected .expression token

/-- Member access, calls and `new`. The class of a `new` contains no call. -/
def member (self : Self) (calls : Bool) : Production Tree := do
  let token ← next true
  let first ←
    if token.isKeyword .kwNew then do
      let callee ← self (.member false)
      if ← accept .openParen then
        let args ← arguments self
        let span ← spanFrom token.span
        pure (.ofList .newArgs span [callee, .ofList .list span args])
      else pure (.ofList .newBare (← spanFrom token.span) [callee])
    else do
      unread
      primary self
  memberSuffixes self calls token.span first

end ScriptMin.Grammar
