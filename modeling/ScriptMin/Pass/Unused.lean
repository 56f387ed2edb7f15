import ScriptMin.Pass.Statement

/-!
Removal of declarations whose names are not used. Dropping a declaration can leave the
names in its initializer without a use, so that scanning and removing alternate until
nothing is left to remove.
-/

namespace ScriptMin.Unused

def maxRounds : Nat := 25

def removeTrailingParams (unused : NameSet) (function : NodeId) : Edit Bool := do
  let s ← get
  match s.child? function .params with
  | none => return false
  | some params =>
    let trailing := (s.children params).reverse.takeWhile fun p =>
      s.kind p == .identifier && unused.contains (s.text p)
    sweep (fun p => do modify (Store.remove p); return true) trailing

/-- Takes the name of a function away that is part of an expression and does not use its
name. -/
def removeFunctionName (unused : NameSet) (function : NodeId) : Edit Bool := do
  let head := (← get).head function
  if Tree.isAccessor head || head.form != some .expressed then return false
  match head.text? with
  | some name =>
    if unused.contains name then
      modify (Store.setPayload function .none)
      return true
    else return false
  | none => return false

/-- The function or object literal at the very start of an expression, if it is not in
parentheses. -/
def leadingLiteral? (s : Store) : Nat → NodeId → Option NodeId
  | 0, _ => none
  | depth + 1, id =>
    if (s.flags id).parenthesized then none
    else if s.kind id = .objectInit ∨ s.kind id = .function then some id
    else if (s.kind id).startsWithOperand then (s.nth? id 0).bind (leadingLiteral? s depth)
    else none

/-- Makes an expression a statement. A function or object literal at its start is put
in parentheses. -/
def demote (expression : NodeId) : Edit NodeId := do
  let (statement, s) := (← get).wrapExpression expression
  match leadingLiteral? s s.size expression with
  | some literal => set (s.setParenthesized literal true)
  | none => set s
  return statement

/-- Removes a declaration whose name is unused. An initializer that may have an effect
is kept as a statement in front of the list or behind it; in the middle of the list it
cannot leave, and the declaration stays. -/
def removeDeclaration (unused : NameSet) (list : NodeId) (count : Nat) :
    Nat × NodeId → Edit Bool
  | (index, declaration) => do
    let s ← get
    if !((s.text? declaration).any unused.contains && (s.child? declaration .names).isNone) then
      return false
    match s.child? declaration .initializer with
    | none =>
      modify (Store.remove declaration)
      return true
    | some initializer =>
      if (s.view initializer).isEffectFree then
        modify (Store.remove declaration)
        return true
      else if 0 < index ∧ index + 1 < count then return false
      else
        let statement ← demote initializer
        if count = 1 then modify (Store.replace list statement)
        else
          if index = 0 then modify (Store.insertBefore list statement)
          else modify (Store.insertAfter list statement)
          modify (Store.remove declaration)
        modify (Store.setRole statement none)
        return true

/-- Removes the unused declarations of a list, and the list if none is left. -/
def removeDeclarations (unused : NameSet) (list : NodeId) : Edit Bool := do
  let declarations := (← get).children list
  let numbered := (List.range declarations.length).zip declarations
  let changed ← sweep (removeDeclaration unused list declarations.length) numbered
  if changed then
    if ((← get).children list).isEmpty then modify (Store.removeStatement list)
  return changed

/-- Removes what a node inside a body declares in vain. Functions of the top level can
be called from elsewhere and stay. -/
def removeAt (unused : NameSet) (topLevel : Bool) (body node : NodeId) : Edit Bool := do
  let s ← get
  if !s.isInside node body then return false
  match s.kind node with
  | .function =>
    if !topLevel && Tree.isDeclaredFunction (s.head node) && (s.text? node).any unused.contains then
      modify (Store.removeStatement node)
      return true
    else return false
  | .varList => if s.inStatementList node then removeDeclarations unused node else return false
  | _ => return false

/-- Removes what a body declares in vain. A body that uses `eval` keeps everything. -/
def removeFromBody (owner : NodeId) : Edit Bool := do
  let s ← get
  match s.scope? owner with
  | none => return false
  | some scope =>
    if !s.isInside owner s.root || scope.unused.isEmpty || scope.usesEval then return false
    let topLevel := owner == s.root
    if s.kind owner = .function then
      let params ←
        if scope.accessed.has "arguments" then pure false
        else removeTrailingParams scope.unused owner
      let name ← removeFunctionName scope.unused owner
      let s ← get
      match s.child? owner .body with
      | none => return params || name
      | some body =>
        let inside ← sweep (removeAt scope.unused topLevel body) (s.bodyNodes body)
        return params || name || inside
    else sweep (removeAt scope.unused topLevel owner) (s.bodyNodes owner)

/-- One round: scans the tree and removes what is unused. -/
def round : Edit Bool := do
  modify Store.scanTree
  let s ← get
  let owners := (s.descendants s.root).filter fun id => s.kind id matches .script | .function
  sweep removeFromBody owners

/-- Alternates scanning and removing for a number of rounds at most. -/
def settle (changed : Bool) : Nat → Pass Bool
  | 0 => do Pass.refuse (← get).root (.unsettled maxRounds)
  | rounds + 1 => do
    if ← round then settle true rounds else return changed

end ScriptMin.Unused

namespace ScriptMin

def removeUnused : Pass Bool := Unused.settle false Unused.maxRounds

end ScriptMin
