import ScriptMin.Pass.Basic
import ScriptMin.Printer.Stored

/-!
Reduction of expressions: parentheses that are not needed, and operations on literals
whose result is no longer to write than the operation.
-/

namespace ScriptMin

def Store.textSize (s : Store) (id : NodeId) : Nat := (s.render {} id).utf8ByteSize

namespace Expressions

def isCallee (s : Store) (id : NodeId) : Bool :=
  (s.parentKind? id).any (· matches .call | .newBare | .newArgs) && s.indexOf? id == some 0

def isChainStart (s : Store) (id : NodeId) : Bool :=
  (s.parentKind? id).any (· matches .dot | .index | .call) && s.indexOf? id == some 0

def startsStatement (s : Store) : Nat → NodeId → Bool
  | 0, _ => false
  | depth + 1, id =>
    match s.parent? id with
    | none => false
    | some parent =>
      s.kind parent == .semicolon ||
        (Printer.startsWithOperand (s.head parent) && s.indexOf? id == some 0 &&
          !(s.flags parent).parenthesized && startsStatement s depth parent)

/-- Whether the parentheses around a node are needed where the printer would not put
them. -/
def needsParens (s : Store) (id : NodeId) : Bool :=
  match s.kind id with
  | .function => isCallee s id || startsStatement s s.size id
  | .objectInit => startsStatement s s.size id
  | .newBare => isChainStart s id
  | .generator => true
  | _ => false

def removeParens (id : NodeId) : Edit Bool := do
  let s ← get
  if (s.flags id).parenthesized && !needsParens s id then
    modify (Store.setParenthesized id false)
    return true
  else return false

def putLiteral (id : NodeId) (kind : Kind) (payload : Payload) : Edit Bool := do
  let s ← get
  let (literal, s) := s.add { kind, span := s.span id, payload }
  set (s.replace id literal)
  return true

def foldNegation (id : NodeId) : Edit Bool := do
  let s ← get
  match s.nth? id 0 with
  | none => return false
  | some operand =>
    if s.kind operand ≠ .number ∨ (s.flags id).parenthesized then return false
    match s.number? operand with
    | none => return false
    | some value =>
      if value.isZero then return false else putLiteral id .number (.number value.neg)

def compute? (kind : Kind) (a b : Number) : Option Number :=
  match kind with
  | .plus => a.add b
  | .minus => a.sub b
  | .times => a.mul b
  | .divide => a.div b
  | .modulo => a.rem b
  | _ => none

/-- Whether a number can be written as a literal: it is finite and no negative zero. -/
def isWritable (value : Number) : Bool := value.isFinite && !(value.isZero && value.negative)

def foldNumbers (id left right : NodeId) : Edit Bool := do
  let s ← get
  let result := do compute? (s.kind id) (← s.number? left) (← s.number? right)
  match result with
  | none => return false
  | some value =>
    if isWritable value && value.literal.utf8ByteSize ≤ s.textSize id then
      putLiteral id .number (.number value)
    else return false

def foldStrings (id left right : NodeId) : Edit Bool := do
  let s ← get
  let text := s.text left ++ s.text right
  let options : PrintOptions := {}
  if s.kind id = .plus ∧ (Text.quote options.asciiThreshold text).utf8ByteSize ≤ s.textSize id then
    putLiteral id .string (.text text)
  else return false

def foldLiterals (id : NodeId) : Edit Bool := do
  let s ← get
  match s.nth? id 0, s.nth? id 1 with
  | some left, some right =>
    match s.kind left, s.kind right with
    | .number, .number => foldNumbers id left right
    | .string, .string => foldStrings id left right
    | _, _ => return false
  | _, _ => return false

end Expressions

end ScriptMin
