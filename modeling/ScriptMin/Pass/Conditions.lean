import ScriptMin.Pass.Expressions
import ScriptMin.Pass.Statement

/-!
Reduction of `if` statements: to conditional and logical expressions, and to an `if`
without `else` where the first branch jumps away.
-/

namespace ScriptMin.Conditions

def conditional (condition first second : NodeId) : Edit NodeId := do
  let s ← get
  let (id, s) := s.add { kind := .conditional, span := s.span condition }
  set ([condition, first, second].foldl (fun s part => (s.append id part).setRole part none) s)
  return id

def putExpression (id expression : NodeId) : Edit Unit := do
  let (statement, s) := (← get).wrapExpression expression
  set (s.replace id statement)

def mergeReturns (id condition first second : NodeId) : Edit Unit := do
  let span := (← get).span id
  let value ← conditional condition first second
  let (statement, s) := (← get).add { kind := .returnStmt, span }
  set ((s.appendAs statement .value value).replace id statement)

/-- Whether two assignments have the same operator and, as written, the same target. -/
def sameTarget (s : Store) (first second : NodeId) : Bool :=
  (s.head first).assignOp == (s.head second).assignOp &&
    match s.nth? first 0, s.nth? second 0 with
    | some x, some y =>
      (s.kind x matches .identifier | .dot | .index) && s.render {} x == s.render {} y
    | _, _ => false

/-- Target and values of two assignments with the same target. -/
def commonTarget? (s : Store) (first second : NodeId) : Option (NodeId × NodeId × NodeId) := do
  guard (s.kind first == .assign && s.kind second == .assign && sameTarget s first second)
  return (← s.nth? first 0, ← s.nth? first 1, ← s.nth? second 1)

/-- Merges two branches that assign to the same target into one assignment. -/
def mergeAssignments (id condition first target valueA valueB : NodeId) : Edit Unit := do
  let s ← get
  let value ← conditional condition valueA valueB
  let (assign, s) := (← get).add
    { kind := .assign, span := s.span id, assignOp := (s.head first).assignOp }
  set ((s.append assign target).append assign value)
  putExpression id assign

def mergeExpressions (id condition first second : NodeId) : Edit Unit := do
  let s ← get
  match commonTarget? s first second with
  | some (target, valueA, valueB) => mergeAssignments id condition first target valueA valueB
  | none => putExpression id (← conditional condition first second)

def leavesFunction (s : Store) (statement : NodeId) : Bool :=
  match s.kind statement with
  | .returnStmt | .throwStmt => true
  | .block => (s.children statement).getLast?.any (s.kind · matches .returnStmt | .throwStmt)
  | _ => false

def insertBehind (anchor : NodeId) : List NodeId → Store → Store
  | [], s => s
  | statement :: rest, s =>
    insertBehind statement rest ((s.insertAfter anchor statement).setRole statement none)

/-- Moves the second branch behind an `if` whose first branch leaves the function. -/
def liftElse (id thenPart elsePart : NodeId) : Edit Bool := do
  let s ← get
  if s.inStatementList id && leavesFunction s thenPart then
    if s.kind elsePart = .block then
      if s.declaresBlockNames elsePart then return false
      set (insertBehind id (s.children elsePart) (s.remove elsePart))
    else set (insertBehind id [elsePart] (s.remove elsePart))
    return true
  else return false

/-- Operator and left operand of the logical expression that has the effect of an `if`
with a condition. -/
def logicalForm (s : Store) (condition : NodeId) : Option (Kind × NodeId) :=
  if s.kind condition = .not ∧ !(s.flags condition).parenthesized then
    (s.nth? condition 0).map fun operand => (.or, operand)
  else some (.and, condition)

def copyPlain (id : NodeId) : Edit NodeId := do
  let (copy, s) := (← get).copy id
  set (s.setRole copy none)
  return copy

/-- Makes a logical expression of an `if` without `else` where that is shorter. -/
def toLogical (id condition thenPart : NodeId) : Edit Bool := do
  let s ← get
  match s.expressionOf? thenPart, logicalForm s condition with
  | some expression, some (kind, left) =>
    let left ← copyPlain left
    let right ← copyPlain expression
    let (logical, s) := (← get).add { kind, span := s.span id }
    let (statement, s) := ((s.append logical left).append logical right).wrapExpression logical
    set s
    if s.textSize statement < s.textSize id then
      modify (Store.replace id statement)
      return true
    else return false
  | _, _ => return false

def returnedValues? (s : Store) (thenPart elsePart : NodeId) : Option (NodeId × NodeId) := do
  guard (s.kind thenPart == .returnStmt && s.kind elsePart == .returnStmt)
  return (← s.child? thenPart .value, ← s.child? elsePart .value)

def branchExpressions? (s : Store) (thenPart elsePart : NodeId) : Option (NodeId × NodeId) := do
  return (← s.expressionOf? thenPart, ← s.expressionOf? elsePart)

def reduceBranches (id condition thenPart elsePart : NodeId) : Edit Bool := do
  let s ← get
  match returnedValues? s thenPart elsePart with
  | some (first, second) =>
    mergeReturns id condition first second
    return true
  | none =>
    match branchExpressions? s thenPart elsePart with
    | some (first, second) =>
      mergeExpressions id condition first second
      return true
    | none => liftElse id thenPart elsePart

def reduceIf (id : NodeId) : Edit Bool := do
  let s ← get
  match s.child? id .condition, s.child? id .thenPart with
  | some condition, some thenPart =>
    match s.child? id .elsePart with
    | some elsePart => reduceBranches id condition thenPart elsePart
    | none => toLogical id condition thenPart
  | _, _ => return false

end ScriptMin.Conditions
