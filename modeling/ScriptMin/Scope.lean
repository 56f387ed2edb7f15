import ScriptMin.Names
import ScriptMin.Tree.Binding

/-!
Scopes: which names a body declares and which it uses. A body is that of a function or
the whole script. The names that a nested function uses and does not declare count as
uses of the body around it.
-/

namespace ScriptMin

/-- How a body uses names. -/
structure Scope where
  /-- Names declared in the body: variables, functions and caught exceptions. -/
  declared : NameSet := []
  /-- Names of the parameters in order. -/
  params : List String := []
  /-- How often each name is used. -/
  accessed : NameCounts := []
  /-- Names that are assigned to. -/
  modified : NameSet := []
  /-- Used names that are not declared here, with the number of uses. -/
  shared : NameCounts := []
  /-- Declared names and parameters that are not used. -/
  unused : NameSet := []
  /-- Dotted names whose first part is not declared here. -/
  packages : NameSet := []
  /-- Whether `eval` is used here or in a nested function. -/
  usesEval : Bool := false
  /-- Whether `with` occurs here or in a nested function. -/
  hasWith : Bool := false
  deriving DecidableEq, Repr, Inhabited

namespace Scope

def isLocal (s : Scope) (name : String) : Bool := s.declared.contains name || s.params.contains name

def accesses (s : Scope) (name : String) : Nat := s.accessed.count name

def access (name : String) (count : Nat) (s : Scope) : Scope :=
  { s with accessed := s.accessed.add name count, usesEval := s.usesEval || name == "eval" }

def declare (name : String) (s : Scope) : Scope := { s with declared := s.declared.insert name }

def declareAll (names : List String) (s : Scope) : Scope :=
  { s with declared := s.declared.insertAll names }

def modifyAll (names : List String) (s : Scope) : Scope :=
  { s with modified := s.modified.insertAll names }

def addPackage (name : String) (s : Scope) : Scope := { s with packages := s.packages.insert name }

def absorb (s nested : Scope) : Scope :=
  let s := nested.shared.foldl (fun s (name, count) => s.access name count) s
  { s with
    packages := s.packages.insertAll nested.packages
    usesEval := s.usesEval || nested.usesEval
    hasWith := s.hasWith || nested.hasWith }

def rootName (package : String) : String :=
  String.ofList (package.toList.takeWhile (· ≠ '.'))

/-- Draws the conclusions once everything is recorded. -/
def finish (s : Scope) : Scope :=
  { s with
    shared := s.accessed.filter fun (name, _) => !s.isLocal name
    unused := NameSet.ofList ((s.declared ++ s.params).filter fun name => s.accesses name == 0)
    packages := s.packages.filter fun package => !s.isLocal (rootName package) }

end Scope

namespace Tree

def isDeclaredFunction (head : Head) : Bool :=
  head.form == some .declared || head.form == some .nested

def isAccessor (head : Head) : Bool := head.flags.getter || head.flags.setter

def assignedNames (t : Tree) : List String :=
  match t.kind with
  | .identifier | .arrayInit | .objectInit => t.boundNames
  | _ => []

/-- What a function brings into its own scope: its parameters, and its name if it is part
of an expression. -/
def functionStart (head : Head) (children : List Tree) : Scope :=
  let params := (children.find? fun c => c.head.role == some .params).map Tree.children
  let named := head.form == some .expressed && !isAccessor head
  { params := (params.getD []).flatMap boundNames
    declared := if named then head.text?.toList else [] }

/-- Names declared by a declaration: its own, or those of its pattern. -/
def declarationNames (head : Head) (children : List Tree) : List String :=
  let pattern := children.find? fun c => c.head.role == some .names
  head.text?.toList ++ (pattern.map boundNames).getD []

mutual
/-- Records what a tree declares and uses. `inChain` says that the tree is the object of
a member access, `inTail` that it is a clause of a comprehension. -/
def record (inChain inTail : Bool) : Tree → Scope → Scope
  | .node head children, scope =>
    match head.kind with
    | .identifier => scope.access head.text 1
    | .function =>
      let scope :=
        if isDeclaredFunction head then scope.declareAll head.text?.toList else scope
      scope.absorb (recordBody children (functionStart head children)).finish
    | .dot =>
      let scope :=
        if inChain then scope
        else match dottedNameOfParts? children with
          | some name => scope.addPackage name
          | none => scope
      recordFirst true children scope
    | .propertyInit => recordSecond children scope
    | .declaration =>
      recordRole .initializer children (scope.declareAll (declarationNames head children))
    | .catchClause =>
      let exception := children.find? fun c => c.head.role == some .exception
      let scope := scope.declareAll ((exception.map boundNames).getD [])
      recordRole .block children (recordRole .guard children scope)
    | .assign | .increment | .decrement =>
      let target := (children.head?.map assignedNames).getD []
      recordList head.kind children (scope.modifyAll target)
    | .forIn =>
      let scope :=
        match children.find? fun c => c.head.role == some .iterator with
        | some iterator =>
          if inTail then scope.declareAll iterator.boundNames
          else scope.modifyAll iterator.assignedNames
        | none => scope
      recordList .forIn children scope
    | .withStmt => recordList .withStmt children { scope with hasWith := true }
    | kind => recordList kind children scope

def recordList (parent : Kind) : List Tree → Scope → Scope
  | [], scope => scope
  | t :: rest, scope =>
    recordRest parent rest (record (parent == .dot) (parent == .compTail) t scope)

/-- Records what the children of a node behind the first one declare and use. -/
def recordRest (parent : Kind) : List Tree → Scope → Scope
  | [], scope => scope
  | t :: rest, scope => recordRest parent rest (record false (parent == .compTail) t scope)

def recordFirst (inChain : Bool) : List Tree → Scope → Scope
  | [], scope => scope
  | t :: _, scope => record inChain false t scope

def recordSecond : List Tree → Scope → Scope
  | [], scope => scope
  | _ :: rest, scope => recordFirst false rest scope

/-- Records what the first of several trees with a role declares and uses. -/
def recordRole (role : Role) : List Tree → Scope → Scope
  | [], scope => scope
  | t :: rest, scope =>
    if t.head.role = some role then record false false t scope else recordRole role rest scope

def recordBody : List Tree → Scope → Scope
  | [], scope => scope
  | .node head children :: rest, scope =>
    if head.role = some .body then recordList head.kind children scope
    else recordBody rest scope
end

/-- Scope of the body that a tree owns: that of a function, or of the tree itself. -/
def scope : Tree → Scope
  | .node head children =>
    if head.kind = .function then (recordBody children (functionStart head children)).finish
    else (recordList head.kind children {}).finish

end Tree

end ScriptMin
