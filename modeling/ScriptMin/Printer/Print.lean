import ScriptMin.Printer.Output
import ScriptMin.Printer.Site
import ScriptMin.Text.Quoted

/-!
The printer: the most compact text of a tree. Parentheses are written where a node is
marked with them and where the precedence of its place asks for them.

Every form writes its children through `self`, so that the printer is a recursion on the
depth of the tree.
-/

namespace ScriptMin.Printer

/-- How a tree is to be written. -/
inductive Mode where
  | statement
  /-- As an expression that binds at least as tightly as the given number. -/
  | expression (least : Nat)
  /-- As an expression without parentheses around it. -/
  | bare
  deriving DecidableEq, Repr

/-- Access to the printer of smaller trees. -/
abbrev Self := Mode → Site → Writing Unit

def optional (self : Self) (least : Nat) (part : Option Site) : Writing Unit :=
  match part with
  | some site => self (.expression least) site
  | none => return

def inOrder (w : Site → Writing Unit) : List Site → Writing Unit
  | [] => return
  | site :: rest => do
    w site
    inOrder w rest

def separatedRest (w : Site → Writing Unit) : List Site → Writing Unit
  | [] => return
  | site :: rest => do
    separator
    w site
    separatedRest w rest

def separated (w : Site → Writing Unit) : List Site → Writing Unit
  | [] => return
  | site :: rest => do
    w site
    separatedRest w rest

/-! ### Shared forms -/

def statements (self : Self) (list : Site) : Writing Unit :=
  inOrder (self .statement) list.children

def braced (self : Self) (list : Site) : Writing Unit := do
  write "\x7b"
  statements self list
  closeBrace

/-- Writes the body of a compound statement, the empty statement if it is missing. -/
def body (self : Self) (part : Option Site) : Writing Unit :=
  match part with
  | some site => self .statement site
  | none => write ";"

def declaration (self : Self) (site : Site) : Writing Unit := do
  match site.child? .names with
  | some pattern => self (.expression Precedence.assignment) pattern
  | none => write site.text
  match site.child? .initializer with
  | some value =>
    write "="
    self (.expression Precedence.assignment) value
  | none => return

def declarationWord : Kind → String
  | .constList => "const"
  | .letList => "let"
  | _ => "var"

def declarations (self : Self) (site : Site) : Writing Unit :=
  separated (declaration self) site.children

def declarationList (self : Self) (site : Site) : Writing Unit := do
  write (declarationWord site.kind)
  declarations self site

def forPart (self : Self) (least : Nat) (site : Site) : Writing Unit := forbidIn do
  if site.kind.isDeclarationList then declarationList self site
  else self (.expression least) site

def forInHead (self : Self) (site : Site) : Writing Unit := do
  write "for"
  if site.flags.each then write "each"
  write "("
  match site.child? .iterator with
  | some iterator => forPart self Precedence.trailing iterator
  | none => pure ()
  write "in"
  optional self Precedence.comma (site.child? .object)
  write ")"

def letHead (self : Self) (site : Site) : Writing Unit := do
  write "let("
  match site.child? .bindings with
  | some bindings => allowIn (declarations self bindings)
  | none => pure ()
  write ")"

def parameters (self : Self) (site : Site) : Writing Unit :=
  match site.child? .params with
  | some params => separated (self (.expression Precedence.assignment)) params.children
  | none => return

def functionBody (self : Self) (site : Site) : Writing Unit :=
  match site.bareValue?, site.child? .body with
  | some value, _ =>
    if value.kind = .objectInit ∧ ¬ value.flags.parenthesized then do
      write "("
      self (.expression Precedence.assignment) value
      write ")"
    else self (.expression Precedence.assignment) value
  | none, some body => braced self body
  | none, none => write "\x7b\x7d"

def function (self : Self) (site : Site) : Writing Unit := allowIn do
  write (if site.flags.getter then "get" else if site.flags.setter then "set" else "function")
  match site.tree.head.text? with
  | some name => write name
  | none => pure ()
  write "("
  parameters self site
  write ")"
  functionBody self site

/-! ### Statements -/

/-- Writes an `if`. Braces keep an `else` from joining an inner `if`. -/
def ifElse (self : Self) (site : Site) : Writing Unit := do
  write "if("
  optional self Precedence.comma (site.child? .condition)
  write ")"
  match site.child? .thenPart, site.child? .elsePart with
  | some thenPart, some elsePart =>
    if thenPart.kind ≠ .block ∧ endsWithOpenIf thenPart.tree then
      write "\x7b"
      self .statement thenPart
      closeBrace
    else self .statement thenPart
    write "else"
    self .statement elsePart
  | thenPart, none => body self thenPart
  | none, some elsePart =>
    write ";"
    write "else"
    self .statement elsePart

def clause (self : Self) (site : Site) : Writing Unit := do
  if site.kind = .caseClause then
    write "case"
    optional self Precedence.comma (site.child? .label)
    write ":"
  else write "default:"
  match site.child? .statements with
  | some list => statements self list
  | none => return

def switchCase (self : Self) (site : Site) : Writing Unit := do
  write "switch("
  optional self Precedence.comma (site.child? .discriminant)
  write ")\x7b"
  inOrder (clause self)
    (site.children.filter fun c => c.kind == .caseClause || c.kind == .defaultClause)
  closeBrace

def forLoop (self : Self) (site : Site) : Writing Unit := do
  write "for("
  match site.child? .setup with
  | some setup => forPart self Precedence.comma setup
  | none => pure ()
  write ";"
  optional self Precedence.comma (site.child? .condition)
  write ";"
  optional self Precedence.comma (site.child? .update)
  write ")"
  body self (site.child? .body)

def catchClause (self : Self) (site : Site) : Writing Unit := do
  write "catch("
  optional self Precedence.assignment (site.child? .exception)
  match site.child? .guard with
  | some guard =>
    write "if"
    self (.expression Precedence.comma) guard
  | none => pure ()
  write ")"
  match site.child? .block with
  | some block => braced self block
  | none => return

def tryCatch (self : Self) (site : Site) : Writing Unit := do
  write "try"
  match site.child? .tryBlock with
  | some block => braced self block
  | none => pure ()
  inOrder (catchClause self) (site.children.filter fun c => c.kind == .catchClause)
  match site.child? .finallyBlock with
  | some block =>
    write "finally"
    braced self block
  | none => return

def expressionStatement (self : Self) (site : Site) : Writing Unit := do
  match site.child? .expression with
  | some value =>
    if startsAmbiguously value.tree then
      write "("
      self (.expression Precedence.comma) value
      write ")"
    else self (.expression Precedence.comma) value
    endStatement
  | none => write ";"

def letStatement (self : Self) (site : Site) : Writing Unit := do
  letHead self site
  match site.child? .block with
  | some block => braced self block
  | none =>
    optional self Precedence.assignment (site.child? .expression)
    endStatement

def jump (word : String) (site : Site) : Writing Unit := do
  write word
  match site.tree.head.text? with
  | some label => write label
  | none => pure ()
  endStatement

def wordStatement (self : Self) (word : String) (part : Option Site) : Writing Unit := do
  write word
  optional self Precedence.comma part
  endStatement

def wordHead (self : Self) (word : String) (part : Option Site) : Writing Unit := do
  write word
  optional self Precedence.comma part
  write ")"

def statementForm (self : Self) (site : Site) : Writing Unit := do
  match site.kind with
  | .script => statements self site
  | .block => braced self site
  | .semicolon => expressionStatement self site
  | .ifElse => ifElse self site
  | .switchCase => switchCase self site
  | .caseClause | .defaultClause => clause self site
  | .forLoop => forLoop self site
  | .forIn =>
    forInHead self site
    body self (site.child? .body)
  | .whileLoop =>
    wordHead self "while(" (site.child? .condition)
    body self (site.child? .body)
  | .doLoop =>
    write "do"
    body self (site.child? .body)
    wordHead self "while(" (site.child? .condition)
    endStatement
  | .tryCatch => tryCatch self site
  | .catchClause => catchClause self site
  | .throwStmt => wordStatement self "throw" (site.child? .exception)
  | .returnStmt => wordStatement self "return" (site.child? .value)
  | .breakStmt => jump "break" site
  | .continueStmt => jump "continue" site
  | .label =>
    write site.text
    write ":"
    body self (site.child? .statement)
  | .varList | .constList | .letList =>
    declarationList self site
    endStatement
  | .letBlock => letStatement self site
  | .declaration => declaration self site
  | .function => function self site
  | .withStmt =>
    wordHead self "with(" (site.child? .object)
    body self (site.child? .body)
  | .debuggerStmt =>
    write "debugger"
    endStatement
  | _ => return

/-! ### Expressions -/

def item (self : Self) (site : Site) : Writing Unit := self (.expression Precedence.assignment) site

def arguments (self : Self) (list : Option Site) : Writing Unit := do
  write "("
  allowIn <| match list with
    | some list => separated (item self) list.children
    | none => return
  write ")"

/-- Writes the class of a `new`, which must not contain a bare call. -/
def newCallee (self : Self) (callee : Site) : Writing Unit := do
  let wrap := !callee.flags.parenthesized &&
    (Precedence.of callee.kind < Precedence.member || chainHasCall callee.tree)
  if wrap then
    write "("
    self (.expression Precedence.comma) callee
    write ")"
  else self (.expression Precedence.member) callee

def propertyKey (key : Site) : Writing Unit := do
  match key.kind with
  | .string => write (Text.quote (← read).asciiThreshold key.text)
  | .number => write (key.tree.head.number?.getD .zero).literal
  | _ => write key.text

def assignSign (head : Head) : String :=
  match head.assignOp.bind Kind.operator? with
  | some op => op ++ "="
  | none => "="

def dot (self : Self) (site : Site) : Writing Unit := do
  match site.nth? 0 with
  | some object =>
    if object.isBareInteger then
      write "("
      self .bare object
      write ")"
    else self (.expression Precedence.member) object
  | none => pure ()
  write "."
  match site.nth? 1 with
  | some property => write property.text
  | none => return

/-- Writes an array literal. A hole at the end needs a comma of its own. -/
def arrayInit (self : Self) (site : Site) : Writing Unit := do
  write "["
  separated (item self) site.children
  if site.tree.children.getLast?.any fun t => t.kind == .hole then write ","
  write "]"

def compTail (self : Self) (site : Site) : Writing Unit := do
  inOrder (forInHead self) (site.children.filter fun c => c.kind == .forIn)
  match site.child? .guard with
  | some guard =>
    write "if("
    self (.expression Precedence.comma) guard
    write ")"
  | none => return

def comprehension (self : Self) (site : Site) : Writing Unit := do
  optional self Precedence.assignment (site.child? .expression)
  optional self Precedence.comma (site.child? .tail)

/-- Writes a tree whose kind is a form of expression, without parentheses around it. -/
def expressionForm (self : Self) (site : Site) : Writing Unit := do
  let kind := site.kind
  let operator := kind.operator?.getD ""
  match kind with
  | .identifier | .regExp => write site.text
  | .number | .string => propertyKey site
  | .trueLit => write "true"
  | .falseLit => write "false"
  | .nullLit => write "null"
  | .thisRef => write "this"
  | .hole => return
  | .assign =>
    optional self Precedence.trailing (site.nth? 0)
    write (assignSign site.tree.head)
    optional self Precedence.assignment (site.nth? 1)
  | .conditional =>
    optional self (Precedence.conditional + 1) (site.nth? 0)
    write "?"
    allowIn (optional self Precedence.assignment (site.nth? 1))
    write ":"
    optional self Precedence.assignment (site.nth? 2)
  | .increment | .decrement =>
    if site.flags.trailing then
      optional self Precedence.trailing (site.nth? 0)
      write operator
    else
      write operator
      optional self Precedence.unary (site.nth? 0)
  | .dot => dot self site
  | .index =>
    optional self Precedence.member (site.nth? 0)
    write "["
    optional self Precedence.comma (site.nth? 1)
    write "]"
  | .call =>
    optional self Precedence.member (site.nth? 0)
    arguments self (site.nth? 1)
  | .newBare | .newArgs =>
    write "new"
    match site.nth? 0 with
    | some callee => newCallee self callee
    | none => pure ()
    if kind = .newArgs then arguments self (site.nth? 1)
  | .list | .comma => separated (item self) site.children
  | .arrayInit => arrayInit self site
  | .objectInit =>
    write "\x7b"
    separated (self .bare) site.children
    write "\x7d"
  | .propertyInit =>
    match site.nth? 0 with
    | some key => propertyKey key
    | none => pure ()
    write ":"
    optional self Precedence.assignment (site.nth? 1)
  | .function => function self site
  | .arrayComp =>
    write "["
    comprehension self site
    write "]"
  | .generator =>
    if site.soleArgument then comprehension self site
    else
      write "("
      comprehension self site
      write ")"
  | .compTail => compTail self site
  | .letBlock =>
    letHead self site
    optional self Precedence.assignment (site.child? .expression)
  | .yieldOf =>
    write "yield"
    optional self Precedence.assignment (site.nth? 0)
  | _ =>
    if kind.isBinary then
      let (left, right) := Precedence.operands kind
      optional self left (site.nth? 0)
      write operator
      optional self right (site.nth? 1)
    else if kind.isUnary then
      write operator
      optional self Precedence.unary (site.nth? 0)

/-! ### The printer -/

/-- Whether a kind is written by its form as a statement wherever it stands. -/
def isStatementForm (kind : Kind) : Bool := kind.isStatement && kind != .function

def bare (self : Self) (site : Site) : Writing Unit :=
  if isStatementForm site.kind then statementForm self site else expressionForm self site

def needsParens (noIn : Bool) (least : Nat) (site : Site) : Bool :=
  (site.flags.parenthesized && site.kind != .generator) ||
    site.precedence < least || (site.kind == .isIn && noIn)

/-- Writes an expression that binds at least as tightly as the given number. -/
def expression (self : Self) (least : Nat) (site : Site) : Writing Unit := do
  if needsParens (← get).noIn least site then
    allowIn do
      write "("
      bare self site
      write ")"
  else bare self site

/-- Writes a statement. An expression in its place is ended like one. -/
def statement (self : Self) (site : Site) : Writing Unit := do
  if site.kind.isStatement || site.kind == .letBlock then statementForm self site
  else
    expression self Precedence.comma site
    endStatement

/-- The printer with a bound for the depth of trees. -/
def print : Nat → Self
  | 0, _, _ => return
  | depth + 1, mode, site =>
    match mode with
    | .statement => statement (print depth) site
    | .expression least => expression (print depth) least site
    | .bare => bare (print depth) site

def modeOf (kind : Kind) : Mode :=
  if kind.isStatement then .statement else .expression Precedence.comma

end ScriptMin.Printer

namespace ScriptMin

def Printer.Site.render (options : PrintOptions) (site : Printer.Site) : String :=
  let (_, output) := (Printer.print site.tree.depth (Printer.modeOf site.kind) site).run options {}
  output.text

def Tree.render (options : PrintOptions) (t : Tree) : String :=
  Printer.Site.render options { tree := t }

end ScriptMin
