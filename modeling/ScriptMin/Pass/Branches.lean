import ScriptMin.Pass.Statement
import ScriptMin.Pass.Truth

/-!
Removal of branches that are never taken. A condition whose truth is known decides its
`if` or conditional expression, and a literal decides a `switch` all of whose clauses are
closed by a `break`.
-/

namespace ScriptMin.Branches

def decideIf (id : NodeId) : Edit Bool := do
  let s ← get
  match (s.child? id .condition).bind fun c => (s.view c).truth? with
  | none => return false
  | some value =>
    match s.child? id (if value then .thenPart else .elsePart) with
    | some branch => modify (Store.replaceStatement id branch)
    | none => modify (Store.removeStatement id)
    return true

def decideConditional (id : NodeId) : Edit Bool := do
  let s ← get
  match (s.nth? id 0).bind fun c => (s.view c).truth? with
  | none => return false
  | some value =>
    match s.nth? id (if value then 1 else 2) with
    | none => return false
    | some branch =>
      modify (Store.replace id branch)
      return true

def isPlainBreak (s : Store) (id : NodeId) : Bool :=
  s.kind id == .breakStmt && (s.text? id).isNone

/-- Whether the last of the statements of a clause is a `break` without a label. -/
def endsInBreak (s : Store) (statements : NodeId) : Bool :=
  (s.children statements).getLast?.any (isPlainBreak s)

/-- The kinds that a `break` without a label can refer to, and functions, which it
cannot leave. -/
def breakTargets : List Kind :=
  [.forLoop, .forIn, .whileLoop, .doLoop, .switchCase, .function]

/-- Whether a `break` before the last statement of a clause leaves the `switch`. -/
def breaksEarly (s : Store) (switch statements : NodeId) : Bool :=
  (s.children statements).dropLast.any fun statement =>
    (s.descendants statement).any fun id =>
      isPlainBreak s id && s.ancestor? id breakTargets == some switch

/-- The clauses of a `switch` that matter once its value is known. -/
structure Choice where
  /-- Statements of the first clause whose label equals the value. -/
  chosen : Option NodeId := none
  /-- Statements of the default clause. -/
  fallback : Option NodeId := none
  deriving Repr

/-- Takes a clause into account. There is no choice if it could fall through to the next
one or if its label is not a literal. -/
def consider (s : Store) (switch value : NodeId) (choice : Choice) (clause : NodeId) :
    Option Choice := do
  let statements ← s.child? clause .statements
  guard (endsInBreak s statements && !breaksEarly s switch statements)
  if s.kind clause = .defaultClause then return { choice with fallback := some statements }
  let label ← s.child? clause .label
  match (s.view value).literalsEqual? (s.view label) with
  | some true => return { choice with chosen := choice.chosen <|> some statements }
  | some false => return choice
  | none =>
    guard (s.kind label).isLiteral
    return choice

/-- The clauses of a `switch` that matter, if the statement can be decided. -/
def choice? (s : Store) (switch : NodeId) : Option Choice := do
  let value ← s.child? switch .discriminant
  guard (s.kind value matches .string | .number)
  let clauses := (s.children switch).filter fun c =>
    s.kind c matches .caseClause | .defaultClause
  clauses.foldlM (consider s switch value) {}

def decideSwitch (id : NodeId) : Edit Bool := do
  let s ← get
  match choice? s id with
  | none => return false
  | some choice =>
    match choice.chosen <|> choice.fallback with
    | none => modify (Store.removeStatement id)
    | some statements =>
      match (s.children statements).getLast? with
      | some last => modify (Store.remove last)
      | none => pure ()
      modify (Store.setRole statements none)
      modify (Store.replaceStatement id statements)
    return true

def decideNode (id : NodeId) : Edit Bool := do
  match (← get).kind id with
  | .ifElse => decideIf id
  | .conditional => decideConditional id
  | .switchCase => decideSwitch id
  | _ => return false

end ScriptMin.Branches

namespace ScriptMin

/-- Removes the branches that are never taken, the innermost ones first. -/
def removeDeadBranches : Edit Bool := do
  let s ← get
  sweep Branches.decideNode (s.postorder s.root)

end ScriptMin
