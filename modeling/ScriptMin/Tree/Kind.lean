/-!
Kinds of tree nodes.
-/

namespace ScriptMin

inductive Kind where
  /-- Top level or function body. -/
  | script
  /-- Statements in braces. -/
  | block
  /-- Expression statement, or the empty statement. -/
  | semicolon
  /-- The form `if`. -/
  | ifElse
  /-- The form `switch`. -/
  | switchCase
  /-- A `case` clause. -/
  | caseClause
  /-- A `default` clause. -/
  | defaultClause
  /-- A `for` with three parts. -/
  | forLoop
  /-- A `for`-`in` or `for each`-`in`. -/
  | forIn
  /-- The form `while`. -/
  | whileLoop
  /-- The form `do`-`while`. -/
  | doLoop
  /-- The form `try`. -/
  | tryCatch
  /-- A `catch` clause. -/
  | catchClause
  /-- The form `throw`. -/
  | throwStmt
  /-- The form `return`. -/
  | returnStmt
  /-- The form `break`. -/
  | breakStmt
  /-- The form `continue`. -/
  | continueStmt
  /-- Labelled statement. -/
  | label
  /-- A `var` list. -/
  | varList
  /-- A `const` list. -/
  | constList
  /-- A `let` list. -/
  | letList
  /-- A `let (...)` with a block or an expression. -/
  | letBlock
  /-- One declared name or pattern. -/
  | declaration
  /-- Function or accessor. -/
  | function
  /-- The form `with`. -/
  | withStmt
  /-- The form `debugger`. -/
  | debuggerStmt
  /-- Name. -/
  | identifier
  /-- Number literal. -/
  | number
  /-- String literal. -/
  | string
  /-- Regular expression literal. -/
  | regExp
  /-- The form `true`. -/
  | trueLit
  /-- The form `false`. -/
  | falseLit
  /-- The form `null`. -/
  | nullLit
  /-- The form `this`. -/
  | thisRef
  /-- Plain or compound assignment. -/
  | assign
  /-- The form `a ? b : c`. -/
  | conditional
  /-- The form `||`. -/
  | or
  /-- The form `&&`. -/
  | and
  /-- The form `|`. -/
  | bitOr
  /-- The form `^`. -/
  | bitXor
  /-- The form `&`. -/
  | bitAnd
  /-- The form `==`. -/
  | eq
  /-- The form `!=`. -/
  | ne
  /-- The form `===`. -/
  | strictEq
  /-- The form `!==`. -/
  | strictNe
  /-- The form `<`. -/
  | lt
  /-- The form `<=`. -/
  | le
  /-- The form `>=`. -/
  | ge
  /-- The form `>`. -/
  | gt
  /-- The form `in`. -/
  | isIn
  /-- The form `instanceof`. -/
  | instanceOf
  /-- The form `<<`. -/
  | shiftLeft
  /-- The form `>>`. -/
  | shiftRight
  /-- The form `>>>`. -/
  | shiftRightZero
  /-- Binary `+`. -/
  | plus
  /-- Binary `-`. -/
  | minus
  /-- The form `*`. -/
  | times
  /-- The form `/`. -/
  | divide
  /-- The form `%`. -/
  | modulo
  /-- The form `!`. -/
  | not
  /-- The form `~`. -/
  | bitNot
  /-- Unary `+`. -/
  | unaryPlus
  /-- Unary `-`. -/
  | unaryMinus
  /-- The form `typeof`. -/
  | typeOf
  /-- The form `void`. -/
  | voidOf
  /-- The form `delete`. -/
  | delete
  /-- The form `++`. -/
  | increment
  /-- The form `--`. -/
  | decrement
  /-- The form `a.b`. -/
  | dot
  /-- The form `a[b]`. -/
  | index
  /-- The form `f(...)`. -/
  | call
  /-- The form `new X`. -/
  | newBare
  /-- The form `new X(...)`. -/
  | newArgs
  /-- Arguments or parameters. -/
  | list
  /-- Array literal or pattern. -/
  | arrayInit
  /-- Object literal or pattern. -/
  | objectInit
  /-- The form `key: value`. -/
  | propertyInit
  /-- Comma expression. -/
  | comma
  /-- Array comprehension. -/
  | arrayComp
  /-- Generator expression. -/
  | generator
  /-- Clauses and guard of a comprehension. -/
  | compTail
  /-- The form `yield`. -/
  | yieldOf
  /-- Left out array element. -/
  | hole
  deriving DecidableEq, Repr

namespace Kind

def isDeclarationList : Kind → Bool
  | .varList | .constList | .letList => true
  | _ => false

def isStatementList : Kind → Bool
  | .script | .block => true
  | _ => false

def isLiteral : Kind → Bool
  | .number | .string | .regExp | .trueLit | .falseLit | .nullLit => true
  | _ => false

def isBinary : Kind → Bool
  | .or | .and | .bitOr | .bitXor | .bitAnd | .eq | .ne | .strictEq | .strictNe | .lt | .le
  | .ge | .gt | .isIn | .instanceOf | .shiftLeft | .shiftRight | .shiftRightZero | .plus
  | .minus | .times | .divide | .modulo => true
  | _ => false

/-- Whether the text of the kind starts with that of its first operand. Increments and
decrements are left out: with them it depends on the node. -/
def startsWithOperand : Kind → Bool
  | .assign | .conditional | .comma | .dot | .index | .call => true
  | kind => kind.isBinary

def isUnary : Kind → Bool
  | .not | .bitNot | .unaryPlus | .unaryMinus | .typeOf | .voidOf | .delete => true
  | _ => false

def operator? : Kind → Option String
  | .assign => "="
  | .or => "||"
  | .and => "&&"
  | .bitOr => "|"
  | .bitXor => "^"
  | .bitAnd => "&"
  | .eq => "=="
  | .ne => "!="
  | .strictEq => "==="
  | .strictNe => "!=="
  | .lt => "<"
  | .le => "<="
  | .ge => ">="
  | .gt => ">"
  | .isIn => "in"
  | .instanceOf => "instanceof"
  | .shiftLeft => "<<"
  | .shiftRight => ">>"
  | .shiftRightZero => ">>>"
  | .plus | .unaryPlus => "+"
  | .minus | .unaryMinus => "-"
  | .times => "*"
  | .divide => "/"
  | .modulo => "%"
  | .not => "!"
  | .bitNot => "~"
  | .typeOf => "typeof"
  | .voidOf => "void"
  | .delete => "delete"
  | .increment => "++"
  | .decrement => "--"
  | _ => none

/-- Whether the kind stands for a statement or a part of one. Functions, which occur
as both, count as statements. -/
def isStatement : Kind → Bool
  | .script | .block | .semicolon | .ifElse | .switchCase | .caseClause | .defaultClause
  | .forLoop | .forIn | .whileLoop | .doLoop | .tryCatch | .catchClause | .throwStmt
  | .returnStmt | .breakStmt | .continueStmt | .label | .varList | .constList | .letList
  | .declaration | .withStmt | .debuggerStmt | .function => true
  | _ => false

end Kind

end ScriptMin
