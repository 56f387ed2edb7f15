import ScriptMin.Pass.Statement

/-!
Combination of the variable declarations of a body. The first list of declarations
collects all names; what the other lists initialize is assigned where they stood, so
that initializers run in the same order.
-/

namespace ScriptMin.Declarations

/-- Whether a list of declarations is the iterator of a loop over keys. -/
def isIterator (s : Store) (list : NodeId) : Bool := s.role? list == some .iterator

def namesOf (s : Store) (declaration : NodeId) : List String :=
  match s.child? declaration .names with
  | some pattern => (s.bindings pattern).map s.text
  | none => [s.text declaration]

def isInitialized (s : Store) (declaration : NodeId) : Bool :=
  (s.child? declaration .initializer).isSome || (s.child? declaration .names).isSome

/-- Merges statements into the list of declarations before them while they are lists of
declarations themselves. -/
def mergeInto (previous : NodeId) : List NodeId → Edit Bool
  | [] => return false
  | current :: rest => do
    let s ← get
    if s.kind previous = .varList ∧ s.kind current = .varList then
      modify fun s => (s.moveChildren current previous).remove current
      let _ ← mergeInto previous rest
      return true
    else mergeInto current rest

def mergeNeighbours (list : NodeId) : Edit Bool := do
  match (← get).children list with
  | [] => return false
  | first :: rest => mergeInto first rest

def mergeBody (body : NodeId) : Edit Bool := do
  let s ← get
  let lists := (s.bodyNodes body).filter fun id => (s.kind id).isStatementList
  sweep mergeNeighbours (body :: lists)

def collect (collector : NodeId) (declared : NameSet) (name : String) : Edit NameSet := do
  if declared.contains name then return declared
  let s ← get
  let (declaration, s) :=
    s.add { kind := .declaration, span := s.span collector, payload := .text name }
  set (s.append collector declaration)
  return declared.insert name

def collectAll (collector : NodeId) : List String → NameSet → Edit NameSet
  | [], declared => return declared
  | name :: rest, declared => do collectAll collector rest (← collect collector declared name)

/-- What a declaration assigns to: its pattern, or a reference to its name. -/
def target (declaration : NodeId) : Edit NodeId := do
  let s ← get
  match s.child? declaration .names with
  | some pattern => return pattern
  | none =>
    let (name, s) := s.add
      { kind := .identifier, span := s.span declaration, payload := .text (s.text declaration) }
    set s
    return name

/-- Collects the names of a declaration and makes an assignment of its initializer. -/
def toAssignment (collector declaration : NodeId) (declared : NameSet) :
    Edit (NameSet × Option NodeId) := do
  let declared ← collectAll collector (namesOf (← get) declaration) declared
  let target ← target declaration
  let s ← get
  match s.child? declaration .initializer with
  | none => return (declared, none)
  | some initializer =>
    let (assign, s) := s.add { kind := .assign, span := s.span declaration }
    let s := (s.append assign target).setRole target none
    set ((s.append assign initializer).setRole initializer none)
    return (declared, some assign)

/-- Collects the names of several declarations and makes assignments of their
initializers. -/
def toAssignments (collector : NodeId) : List NodeId → NameSet → Edit (NameSet × List NodeId)
  | [], declared => return (declared, [])
  | declaration :: rest, declared => do
    let (declared, assign) ← toAssignment collector declaration declared
    let (declared, assigns) ← toAssignments collector rest declared
    return (declared, assign.toList ++ assigns)

def sequence (span : Span) : List NodeId → Edit (Option NodeId)
  | [] => return none
  | [assign] => return some assign
  | assigns => do
    let (comma, s) := (← get).add { kind := .comma, span }
    set (assigns.foldl (fun s assign => s.append comma assign) s)
    return some comma

/-- Replaces a list of declarations by assignments of its initializers. Its names go to
the collecting list. -/
def assignList (collector : NodeId) (declared : NameSet) (list : NodeId) : Edit NameSet := do
  let span := (← get).span list
  let (declared, assigns) ← toAssignments collector ((← get).children list) declared
  let expression ← sequence span assigns
  let s ← get
  let inHead := s.role? list == some .setup
  match expression with
  | some expression =>
    if inHead then set (s.replace list expression)
    else
      let (statement, s) := s.add { kind := .semicolon, span }
      set ((s.appendAs statement .expression expression).replace list statement)
  | none => set (if inHead then s.remove list else s.removeStatement list)
  return declared

def assignLists (collector : NodeId) : List NodeId → NameSet → Edit Unit
  | [], _ => return
  | list :: rest, declared => do assignLists collector rest (← assignList collector declared list)

/-- Drops declarations without initializer whose name a list declares once more. -/
def prune (initialized : NameSet) : List NodeId → NameSet → Edit Bool
  | [], _ => return false
  | declaration :: rest, seen => do
    let s ← get
    if isInitialized s declaration then prune initialized rest seen
    else
      let name := s.text declaration
      if initialized.contains name || seen.contains name then
        modify (Store.remove declaration)
        let _ ← prune initialized rest seen
        return true
      else prune initialized rest (seen.insert name)

/-- Drops declarations without initializer whose name the list declares once more. -/
def pruneList (list : NodeId) : Edit Bool := do
  let s ← get
  let declarations := s.children list
  let initialized := (declarations.filter (isInitialized s)).flatMap (namesOf s)
  prune (NameSet.ofList initialized) declarations []

/-- Moves a list of declarations into the head of a loop that follows it and has no
setup. -/
def moveIntoLoop (list : NodeId) : Edit Unit := do
  let s ← get
  let next := do
    let parent ← s.parent? list
    guard (s.kind parent).isStatementList
    let index ← s.indexOf? list
    s.nth? parent (index + 1)
  match next with
  | some next =>
    if s.kind next = .forLoop ∧ s.child? next .setup = none then
      set ((s.insert next 0 list).setRole list (some .setup))
  | none => return

/-- The list of declarations that collects the names of a body: the first one, or a new
one at the start if the first one is the iterator of a loop. -/
def collector (body first : NodeId) : Edit NodeId := do
  let s ← get
  if isIterator s first then
    let (list, s) := s.add { kind := .varList, span := s.span body }
    set (s.insert body 0 list)
    return list
  else return first

def combineBody (body : NodeId) : Edit Bool := do
  let s ← get
  match (s.bodyNodes body).filter fun id => s.kind id == .varList with
  | [] => return false
  | first :: others =>
    let others := others.filter fun list => !isIterator s list
    if others.isEmpty then
      if isIterator s first then return false else pruneList first
    else
      let list ← collector body first
      let s ← get
      assignLists list others (NameSet.ofList ((s.children list).flatMap (namesOf s)))
      let _ ← pruneList list
      moveIntoLoop list
      return true

def visitBody (body : NodeId) : Edit Bool := do
  let before ← mergeBody body
  let combined ← combineBody body
  let after ← mergeBody body
  return before || combined || after

end ScriptMin.Declarations

namespace ScriptMin

def combineDeclarations : Edit Bool := do
  let s ← get
  let bodies := (s.descendants s.root).filterMap fun id =>
    if s.kind id = .function then s.child? id .body else none
  sweep Declarations.visitBody (s.root :: bodies)

end ScriptMin
