import ScriptMin.Pass.Conditions

/-!
Reduction of blocks, statements and expressions. One round goes over the tree from the
leaves to the root, so that the parts of a statement are reduced when it is looked at.
-/

namespace ScriptMin.Blocks

def containsFunction (s : Store) (block : NodeId) : Bool :=
  (s.children block).any fun c => s.kind c == .function

/-- Removes a statement that is empty, or dissolves one that is a block, where it stands
in a list of statements. -/
def dissolve (id : NodeId) : Edit Bool := do
  let s ← get
  match s.kind id with
  | .semicolon =>
    if (s.child? id .expression).isNone then
      modify (Store.remove id)
      return true
    else return false
  | .block =>
    if s.declaresBlockNames id || containsFunction s id then return false
    else
      modify (Store.spliceBefore id id)
      return true
  | _ => return false

def isOpenComma (s : Store) (id : NodeId) : Bool :=
  s.kind id == .comma && !(s.flags id).parenthesized

def commaAround (expression : NodeId) : Edit NodeId := do
  let s ← get
  if isOpenComma s expression then return expression
  else
    let (comma, s) := s.add { kind := .comma, span := s.span expression }
    let s := s.replace expression comma
    set ((s.append comma expression).setRole expression none)
    return comma

/-- Adds an expression to a comma expression; the parts of another comma expression are
added one by one. -/
def extendComma (comma expression : NodeId) (s : Store) : Store :=
  if isOpenComma s expression then
    (s.children expression).foldl (fun s part => s.append comma part) s
  else (s.append comma expression).setRole expression none

def mergeInto (previous : NodeId) : List NodeId → Edit Bool
  | [] => return false
  | current :: rest => do
    let s ← get
    match s.expressionOf? previous, s.expressionOf? current with
    | some first, some second =>
      let comma ← commaAround first
      modify fun s => (extendComma comma second s).remove current
      let _ ← mergeInto previous rest
      return true
    | _, _ => mergeInto current rest

/-- Dissolves blocks and merges expression statements in a list of statements. -/
def reduceList (list : NodeId) : Edit Bool := do
  let dissolved ← sweep dissolve ((← get).children list)
  match (← get).children list with
  | [] => return dissolved
  | first :: rest =>
    let merged ← mergeInto first rest
    return dissolved || merged

def inStatementPosition (s : Store) (block : NodeId) : Bool :=
  (s.parentKind? block).any
      (· matches .ifElse | .forLoop | .forIn | .whileLoop | .doLoop | .withStmt | .label) &&
    (s.role? block).any (· matches .thenPart | .elsePart | .body | .statement)

/-- Whether a following `else` would join a statement that takes the place of a block. -/
def wouldDangle (s : Store) (block statement : NodeId) : Bool :=
  s.role? block == some .thenPart &&
    ((s.parent? block).bind fun parent => s.child? parent .elsePart).isSome &&
    Printer.endsWithOpenIf (s.view statement)

/-- Replaces a block by the only statement in it, and an empty one by the empty
statement. -/
def collapse (block : NodeId) : Edit Bool := do
  let s ← get
  if !inStatementPosition s block then return false
  match s.children block with
  | [] =>
    let (empty, s) := s.add { kind := .semicolon, span := s.span block }
    set (s.replace block empty)
    return true
  | [statement] =>
    if (s.kind statement matches .letList | .constList | .function) ||
        wouldDangle s block statement then
      return false
    else
      modify (Store.replace block statement)
      return true
  | _ => return false

def reduceForm (id : NodeId) : Edit Bool := do
  match (← get).kind id with
  | .script => reduceList id
  | .block => do
    let reduced ← reduceList id
    let collapsed ← collapse id
    return reduced || collapsed
  | .ifElse => Conditions.reduceIf id
  | .unaryMinus => Expressions.foldNegation id
  | kind => if kind.isBinary then Expressions.foldLiterals id else return false

def reduceNode (id : NodeId) : Edit Bool := do
  let parens ← Expressions.removeParens id
  let form ← reduceForm id
  return parens || form

end ScriptMin.Blocks

namespace ScriptMin

def reduceBlocks : Edit Bool := do
  let s ← get
  sweep Blocks.reduceNode (s.postorder s.root)

end ScriptMin
