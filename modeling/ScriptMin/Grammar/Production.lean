import ScriptMin.Grammar.Hoist
import ScriptMin.Tree.Basic

/-!
What the productions of the grammar have in common: the surroundings they depend on,
and the ways to read a required token.

A production that needs another one to go deeper asks for it by its nonterminal. The
grammar ties the knot with a budget that shrinks at every such step.
-/

namespace ScriptMin.Grammar

/-- A construct around a statement, which jumps can refer to. -/
inductive Frame where
  | loop
  | switch
  | label (name : String)
  | other
  deriving DecidableEq, Repr

/-- What a production depends on besides the tokens. -/
structure Surroundings where
  /-- Constructs around the current statement inside the current body, innermost first. -/
  frames : List Frame := []
  /-- Whether a function is around. -/
  inFunction : Bool := false
  /-- Whether `in` ends an expression, as in the head of a `for`. -/
  noIn : Bool := false
  /-- Hoisted declarations of the current body. -/
  hoisted : Option Hoisted := none
  /-- Bound for the number of turns of any loop. -/
  turns : Nat
  deriving DecidableEq, Repr

/-- A computation that reads part of a script. -/
abbrev Production := ReaderT Surroundings Reading

/-- The parts of the grammar that contain each other. -/
inductive Nonterminal where
  | statement
  | assignment
  | unary
  /-- Member access, with or without calls. -/
  | member (calls : Bool)
  | pattern
  deriving DecidableEq, Repr

abbrev Self := Nonterminal → Production Tree

/-! ### Failing -/

def reject {α : Type} (cause : GrammarCause) (line : Nat) : Production α :=
  throw ⟨.grammar cause, line⟩

/-- Rejects the text for a token where something else was wanted. -/
def unexpected {α : Type} (wanted : Wanted) (got : Token) : Production α :=
  throw (Fault.unexpected wanted got)

/-! ### Repeating -/

/-- Outcome of one turn of a loop. -/
inductive Turn (σ α : Type) where
  | again (state : σ)
  | done (result : α)

def repeatFrom {σ α : Type} (turn : σ → Production (Turn σ α)) : Nat → σ → Production α
  | 0, _ => do reject .budgetSpent (← get).line
  | n + 1, state => do
    match ← turn state with
    | .again state => repeatFrom turn n state
    | .done result => return result

def repeatTurns {σ α : Type} (state : σ) (turn : σ → Production (Turn σ α)) : Production α := do
  repeatFrom turn (← read).turns state

/-! ### Reading tokens -/

def next (operand : Bool) : Production Token := Stream.next operand

def peek (operand : Bool) : Production Token := Stream.peek operand

def peekOnLine (operand : Bool) : Production Token := Stream.peekOnLine operand

def unread : Production Unit := Stream.unread

def accept (p : Punctuator) : Production Bool := Stream.accept false p

def acceptWord (k : Keyword) : Production Bool := Stream.acceptWord false k

def expect (p : Punctuator) : Production Token := do
  let token ← next false
  if token.isPunctuator p then return token
  unexpected (.punctuator p) token

def expectWord (k : Keyword) : Production Token := do
  let token ← next false
  if token.isKeyword k then return token
  unexpected (.keyword k) token

def acceptPlainAssign : Production Bool := do
  let token ← next false
  if token.isPunctuator .assign ∧ token.assignOp.isNone then return true
  unread
  return false

def acceptEach : Production Bool := do
  match (← peek false).kind with
  | .identifier "each" =>
    let _ ← next false
    return true
  | _ => return false

def spanFrom (start : Span) : Production Span := return start.cover (← get).token.span

/-- Reads the end of a statement. It is understood before a line break, a closing
brace and the end of the text. -/
def endStatement : Production Unit := do
  let token ← peekOnLine false
  match token.kind with
  | .newline | .endOfInput | .punctuator .closeBrace => return
  | .punctuator .semicolon =>
    let _ ← next false
    return
  | _ => reject .missingSemicolon token.span.line

/-! ### Changing the surroundings -/

def allowIn {α : Type} (p : Production α) : Production α :=
  withReader (fun e => { e with noIn := false }) p

def forbidIn {α : Type} (p : Production α) : Production α :=
  withReader (fun e => { e with noIn := true }) p

def inside {α : Type} (frame : Frame) (p : Production α) : Production α :=
  withReader (fun e => { e with frames := frame :: e.frames }) p

/-! ### Assignment targets -/

/-- How a tree can be assigned to. -/
inductive Target where
  | simple
  | pattern
  | call
  | invalid
  deriving DecidableEq, Repr

/-- How a tree can be assigned to. A pattern must not be in parentheses. -/
def Target.of (t : Tree) : Target :=
  match t.kind with
  | .identifier | .dot | .index => .simple
  | .arrayInit | .objectInit => if t.flags.parenthesized then .invalid else .pattern
  | .call => .call
  | _ => .invalid

end ScriptMin.Grammar
