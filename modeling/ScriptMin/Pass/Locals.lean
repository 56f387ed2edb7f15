import ScriptMin.Pass.Basic
import ScriptMin.Text.Short

/-!
Renaming of the local names of functions. Short names go to the names used most. A
function never gets a name under which it knows a variable of the outside, so that every
use keeps referring to the same declaration.
-/

namespace ScriptMin.Locals

abbrev Replacements := List (String × String)

/-- Names of the environment that a generated name must not hide. -/
def intrinsics : List String := ["NaN", "Infinity", "undefined", "arguments", "eval"]

def unusable : List String := Keyword.all.map Keyword.text ++ intrinsics

/-- The search for a name: the index goes up by one as long as its name is taken. -/
inductive Search (taken : List String) : Nat → Nat → Prop
  | found {i : Nat} : Text.shortName i ∉ taken → Search taken i i
  | next {i j : Nat} : Text.shortName i ∈ taken → Search taken (i + 1) j → Search taken i j

/-- Where the search for a name ends that begins at an index. One of the next names is free, if
there are more of them than taken ones. -/
def nextFree (taken : List String) (start : Nat) : Nat :=
  ((List.range' start (taken.length + 1)).find? fun i => !taken.contains (Text.shortName i)).getD
    start

def assignNames (taken : List String) : List String → Nat → Replacements → Replacements
  | [], _, replacements => replacements
  | name :: rest, start, replacements =>
    let index := nextFree taken start
    assignNames taken rest (index + 1) ((name, Text.shortName index) :: replacements)

/-- Local names in the order in which they are named: most used first, then in ascending
order. -/
def byUse (scope : Scope) : List String :=
  (NameSet.ofList (scope.declared ++ scope.params)).mergeSort fun a b =>
    scope.accesses b ≤ scope.accesses a

def replacementsIn (scope : Scope) (outer : Replacements) : Replacements :=
  let shared := scope.shared.map fun (name, _) => (outer.lookup name).getD name
  assignNames (unusable ++ shared) (byUse scope) 0 outer

def isPropertyName (s : Store) (id : NodeId) : Bool :=
  match s.parentKind? id with
  | some .dot => s.indexOf? id == some 1
  | some .propertyInit => s.indexOf? id == some 0
  | _ => false

/-- The new name of a node, if its replacements give it another one. -/
def renameAt (s : Store) (replacements : Replacements) (id : NodeId) : List (NodeId × String) :=
  match s.text? id with
  | none => []
  | some name =>
    match replacements.lookup name with
    | none => []
    | some new => if new = name then [] else [(id, new)]

/-- The new names of a node and of the nodes below it. The name of a declared function
belongs to the outside, that of another function to its inside. -/
def renamings (s : Store) : Nat → Replacements → NodeId → List (NodeId × String)
  | 0, _, _ => []
  | depth + 1, outer, id =>
    match s.kind id with
    | .function =>
      let inner :=
        match s.scope? id with
        | some scope => replacementsIn scope outer
        | none => outer
      let own :=
        if Tree.isAccessor (s.head id) then []
        else renameAt s (if Tree.isDeclaredFunction (s.head id) then outer else inner) id
      own ++ (s.children id).flatMap (renamings s depth inner)
    | .identifier => if isPropertyName s id then [] else renameAt s outer id
    | .declaration => renameAt s outer id ++ (s.children id).flatMap (renamings s depth outer)
    | _ => (s.children id).flatMap (renamings s depth outer)

def obstacle? (s : Store) (id : NodeId) : Option Refusal :=
  match s.scope? id with
  | some scope =>
    if s.kind id ≠ .function then none
    else if scope.usesEval then some .usesEval
    else if scope.hasWith then some .usesWith
    else none
  | none => none

end ScriptMin.Locals

namespace ScriptMin

/-- Replaces the local names of functions by short ones. Refuses a tree in which a
function uses `eval` or `with`. -/
def renameLocals : Pass Bool := do
  modify Store.scanTree
  let s ← get
  match (s.descendants s.root).findSome? fun id => (Locals.obstacle? s id).map (id, ·) with
  | some (id, cause) => Pass.refuse id cause
  | none =>
    let renamings := Locals.renamings s (s.size + 1) [] s.root
    set (renamings.foldl (fun s (id, name) => s.setText id name) s)
    return !renamings.isEmpty

end ScriptMin
