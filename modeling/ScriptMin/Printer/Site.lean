import ScriptMin.Number.Text
import ScriptMin.Printer.Precedence
import ScriptMin.Tree.Basic

/-!
Trees in their place, and the questions the printer asks about them. The place matters
for generators alone: one that is the only argument of a call has no parentheses of its
own.
-/

namespace ScriptMin.Printer

/-- A tree with what matters of its place. -/
structure Site where
  tree : Tree
  /-- Whether the parent is a call or a `new` with arguments. -/
  underCall : Bool := false
  /-- Whether the tree is the only argument of a call. -/
  soleArgument : Bool := false
  deriving Repr

namespace Site

def kind (s : Site) : Kind := s.tree.kind

def flags (s : Site) : Flags := s.tree.flags

def text (s : Site) : String := s.tree.head.text

def below (s : Site) (child : Tree) : Site where
  tree := child
  underCall := s.kind matches .call | .newArgs
  soleArgument := s.kind == .list && s.tree.children.length == 1 && s.underCall

def children (s : Site) : List Site := s.tree.children.map s.below

def child? (s : Site) (role : Role) : Option Site := (s.tree.child? role).map s.below

def nth? (s : Site) (i : Nat) : Option Site := (s.tree.nth? i).map s.below

/-- The value of a function with a bare body, if its body still is a single `return`. -/
def bareValue? (s : Site) : Option Site :=
  if s.flags.bareBody then do
    let body ← s.child? .body
    match body.children with
    | [statement] => if statement.kind = .returnStmt then statement.child? .value else none
    | _ => none
  else none

/-- Whether the tree is a whole number whose text would swallow a following point. -/
def isBareInteger (s : Site) : Bool :=
  s.kind == .number && !s.flags.parenthesized &&
    match s.tree.head.number? with
    | some value =>
      !value.isNaN && !value.isBelowZero &&
        !value.literal.toList.any (fun c => c == '.' || c == 'e')
    | none => false

/-- How tightly the tree binds. A negative number is written with an operator. -/
def precedence (s : Site) : Nat :=
  if s.kind = .number ∧ s.tree.head.number?.any Number.isBelowZero then Precedence.unary
  else Precedence.of s.kind

end Site

mutual
/-- A tree and all trees below it in their places, parents before children. -/
def Site.preorder (underCall soleArgument : Bool) : Tree → List Site
  | .node head children =>
    ⟨.node head children, underCall, soleArgument⟩ ::
      preorderList (head.kind matches .call | .newArgs)
        (head.kind == .list && children.length == 1 && underCall) children

def Site.preorderList (underCall soleArgument : Bool) : List Tree → List Site
  | [] => []
  | t :: rest =>
    preorder underCall soleArgument t ++ preorderList underCall soleArgument rest
end

mutual
/-- Whether a statement ends with an `if` that an `else` behind it would join. -/
def endsWithOpenIf : Tree → Bool
  | .node head children =>
    match head.kind with
    | .ifElse => (roleEndsWithOpenIf? .elsePart children).getD true
    | .forLoop | .forIn | .whileLoop | .withStmt =>
      (roleEndsWithOpenIf? .body children).getD false
    | .label => (roleEndsWithOpenIf? .statement children).getD false
    | _ => false

def roleEndsWithOpenIf? (role : Role) : List Tree → Option Bool
  | [] => none
  | t :: rest =>
    if t.head.role = some role then some (endsWithOpenIf t) else roleEndsWithOpenIf? role rest
end

/-- Whether the text of a kind of expression starts with that of its first operand. -/
def startsWithOperand (head : Head) : Bool :=
  match head.kind with
  | .increment | .decrement => head.flags.trailing
  | kind => kind.startsWithOperand

mutual
/-- Whether an expression starts with a function or an object literal, which a statement
must not. -/
def startsAmbiguously : Tree → Bool
  | .node head children =>
    if head.flags.parenthesized then false
    else if head.kind = .function ∨ head.kind = .objectInit then true
    else if startsWithOperand head then firstStartsAmbiguously children
    else false

/-- Whether the first of several expressions starts with a function or an object
literal. -/
def firstStartsAmbiguously : List Tree → Bool
  | [] => false
  | t :: _ => startsAmbiguously t
end

mutual
/-- Whether a member chain contains a call outside parentheses. -/
def chainHasCall : Tree → Bool
  | .node head children =>
    match head.kind with
    | .call => true
    | .dot | .index => !head.flags.parenthesized && firstHasCall children
    | _ => false

def firstHasCall : List Tree → Bool
  | [] => false
  | t :: _ => chainHasCall t
end

end ScriptMin.Printer
