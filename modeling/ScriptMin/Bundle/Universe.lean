import ScriptMin.Bundle.Unit

/-!
The units that exist, in ascending order of their ids.
-/

namespace ScriptMin

/-- The units that exist. -/
structure Universe where
  units : List CompilationUnit := []
  deriving Repr, Inhabited

namespace Universe

/-- Puts a unit among units that are ordered by id, in place of one with that id. -/
def insertUnit (unit : CompilationUnit) : List CompilationUnit → List CompilationUnit
  | [] => [unit]
  | other :: rest =>
    if unit.id < other.id then unit :: other :: rest
    else if unit.id = other.id then unit :: rest
    else other :: insertUnit unit rest

/-- Adds a unit, in place of one with the same id. -/
def add (unit : CompilationUnit) (u : Universe) : Universe := ⟨insertUnit unit u.units⟩

def get? (u : Universe) (id : String) : Option CompilationUnit :=
  u.units.find? fun unit => unit.id == id

def contains (u : Universe) (id : String) : Bool := (u.get? id).isSome

def ids (u : Universe) : List String := u.units.map (·.id)

def size (u : Universe) : Nat := u.units.length

/-- Ids of the units below a namespace. -/
def below (u : Universe) (space : String) : List String :=
  u.ids.filter fun id => (space.toList ++ ['.']).isPrefixOf id.toList

/-- What stands before each dot of a text, the shortest first. -/
def beforeDots (seen : List Char) : List Char → List (List Char)
  | [] => []
  | c :: rest =>
    (if c = '.' then [seen.reverse] else []) ++ beforeDots (c :: seen) rest

/-- A dotted name and what is left of it without its last parts, the longest first. -/
def stems (package : String) : List String :=
  package :: ((beforeDots [] package.toList).reverse.map String.ofList)

/-- The unit that a dotted name belongs to: the longest id that the name starts with,
compared part by part. -/
def owner? (u : Universe) (package : String) : Option String :=
  (stems package).find? u.contains

end Universe

end ScriptMin
