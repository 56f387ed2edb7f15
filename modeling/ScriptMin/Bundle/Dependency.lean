import ScriptMin.Bundle.Universe

/-!
Dependencies between units, and the units that a build needs.
-/

namespace ScriptMin

/-- Why units cannot be brought together. -/
inductive DependencyFault where
  /-- A unit does not exist that another one needs or that is asked for. -/
  | missing (name : String) (requiredBy : Option String)
  /-- Units depend on each other in a circle; its first unit is repeated at the end. -/
  | cycle (path : List String)
  deriving DecidableEq, Repr

def DependencyFault.message : DependencyFault → String
  | .missing name (some unit) => s!"Missing unit {name} required by {unit}"
  | .missing name none => s!"Missing unit {name}"
  | .cycle path => "Circular dependency: " ++ " >> ".intercalate path

namespace Universe

def demand (u : Universe) (id : String) : Except DependencyFault CompilationUnit :=
  match u.get? id with
  | some unit => .ok unit
  | none => .error (.missing id none)

/-- The namespace that a requirement for all units below it names. -/
def namespaceOf? (required : String) : Option String :=
  match required.toList.reverse with
  | '*' :: '.' :: rest => some (String.ofList rest.reverse)
  | _ => none

def required (u : Universe) (id name : String) : Except DependencyFault (List String) :=
  match namespaceOf? name with
  | some space => .ok (u.below space)
  | none => if u.contains name then .ok [name] else .error (.missing name (some id))

/-- The units that a unit depends on directly: required and wanted ones, owners of the
dotted names it uses, and units named like a name it uses. -/
def dependencies (u : Universe) (id : String) : Except DependencyFault NameSet := do
  let unit ← u.demand id
  let required ← unit.manifest.requires.mapM (u.required id)
  let found := required.flatten ++ unit.manifest.wants.filter u.contains ++
    unit.packages.filterMap u.owner? ++ unit.shared.filter u.contains
  return (NameSet.ofList found).filter (· ≠ id)

/-- Goes from the units in a queue to all that they depend on. Every unit is in the queue
once at most, so that the number of units bounds the number of steps. -/
def close (u : Universe) : Nat → List String → NameSet → Except DependencyFault NameSet
  | _, [], needed => .ok needed
  | 0, _, needed => .ok needed
  | steps + 1, id :: queue, needed => do
    let fresh := (← u.dependencies id).filter fun dependency => !needed.contains dependency
    close u steps (queue ++ fresh) (needed.insertAll fresh)

/-- Takes the units that are asked for, each once, in the order of asking. -/
def start (u : Universe) : List String → List String → Except DependencyFault (List String)
  | [], queue => .ok queue
  | id :: rest, queue => do
    let _ ← u.demand id
    start u rest (if queue.contains id then queue else queue ++ [id])

def resolve (u : Universe) (ids : List String) : Except DependencyFault NameSet := do
  let queue ← u.start ids []
  u.close u.size queue (NameSet.ofList queue)

end Universe

end ScriptMin
