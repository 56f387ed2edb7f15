import ScriptMin.Bundle.Dependency

/-!
The order in which units are loaded. A unit comes after the units it depends on, except
where one of the two breaks the dependency. A unit that breaks a dependency on another
one comes after it, unless the other one depends on it. Apart from that, units that
depend on fewer others come first, and those with equally many in ascending order.
-/

namespace ScriptMin

/-- What is known about dependencies from earlier questions. -/
structure DependencyMemo where
  direct : List (String × NameSet) := []
  reachable : List (String × NameSet) := []
  deriving Repr, Inhabited

/-- A computation that remembers dependencies, also those found before it fails. -/
abbrev Ordered := ExceptT DependencyFault (StateM DependencyMemo)

namespace Universe

/-- The units that must be loaded before a unit: its dependencies without the broken
ones. -/
def loadedBefore (u : Universe) (id : String) : Except DependencyFault NameSet := do
  let unit ← u.demand id
  return (← u.dependencies id).filter fun dependency =>
    (u.get? dependency).any fun other => !unit.isBrokenWith other

/-- The units that must be loaded directly before a unit. -/
def loadDependencies (u : Universe) (id : String) : Ordered NameSet := do
  match (← get).direct.lookup id with
  | some found => return found
  | none =>
    let found ← liftExcept (u.loadedBefore id)
    modify fun memo => { memo with direct := (id, found) :: memo.direct }
    return found

/-- Adds what is collected for each of several units, and the units themselves. -/
def gather (collect : String → Ordered NameSet) : List String → NameSet → Ordered NameSet
  | [], found => return found
  | id :: rest, found => do
    let nested ← collect id
    gather collect rest ((found.insertAll nested).insert id)

/-- All units that must be loaded before a unit, which is reached over a path. The units
on the path are different from each other, so that their number bounds its length. -/
def collect (u : Universe) : Nat → List String → String → Ordered NameSet
  | 0, _, _ => return []
  | steps + 1, path, id => do
    match (← get).reachable.lookup id with
    | some found => return found
    | none =>
      if path.contains id then
        throw (.cycle (path.dropWhile (· ≠ id) ++ [id]))
      let found ← gather (collect u steps (path ++ [id])) (← u.loadDependencies id) []
      modify fun memo => { memo with reachable := (id, found) :: memo.reachable }
      return found

/-- All units that must be loaded before a unit. -/
def transitiveDependencies (u : Universe) (id : String) : Ordered NameSet :=
  u.collect (u.size + 2) [] id

/-- How many units must be loaded before each of several units. -/
def weigh (u : Universe) : List String → Ordered NameCounts
  | [] => return []
  | id :: rest => do
    let count := (← u.transitiveDependencies id).length
    return (id, count) :: (← u.weigh rest)

/-- Units being laid out. -/
structure Layout where
  placed : List String := []
  /-- Units whose dependencies are being laid out. -/
  active : List String := []
  deriving Repr, Inhabited

/-- The units with a weight, the lightest first, those of equal weight in the given
order. -/
def byWeight (weights : NameCounts) (ids : List String) : List String :=
  (ids.filter weights.has).mergeSort fun a b => weights.count a ≤ weights.count b

def placeAll (place : String → Layout → Ordered Layout) : List String → Layout → Ordered Layout
  | [], layout => return layout
  | id :: rest, layout => do placeAll place rest (← place id layout)

/-- The units that a unit breaks its dependency on and that do not depend on it. -/
def breaksBefore (u : Universe) (id : String) : List String → Ordered (List String)
  | [] => return []
  | other :: rest => do
    let depends := (← u.transitiveDependencies other).contains id
    let others ← u.breaksBefore id rest
    return if depends then others else other :: others

/-- Places a unit behind those that must be loaded before it and those it breaks its
dependency on. Active units are different from each other, so that their number bounds
the depth. -/
def place (u : Universe) (weights : NameCounts) : Nat → String → Layout → Ordered Layout
  | 0, _, layout => return layout
  | depth + 1, id, layout => do
    if layout.placed.contains id || layout.active.contains id then return layout
    let layout := { layout with active := id :: layout.active }
    let before := byWeight weights (← u.loadDependencies id)
    let layout ← placeAll (place u weights depth) before layout
    let breaks := ((u.get? id).map fun unit => unit.manifest.breaks).getD []
    let breaks ← u.breaksBefore id (byWeight weights breaks)
    let layout ← placeAll (place u weights depth) breaks layout
    return { placed := layout.placed ++ [id], active := layout.active.erase id }

def sort (u : Universe) (ids : NameSet) : Ordered (List String) := do
  let weights ← u.weigh ids
  let layout ← placeAll (u.place weights (ids.length + 1)) (byWeight weights ids) {}
  return layout.placed

end Universe

end ScriptMin
