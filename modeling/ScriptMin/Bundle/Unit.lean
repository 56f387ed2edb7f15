import ScriptMin.Data.Record
import ScriptMin.Scope

/-!
Units of compilation as the dependency analysis sees them: what they declare to depend
on, and which names they use.
-/

namespace ScriptMin

/-- What a unit declares about itself. -/
structure Manifest where
  /-- Name that the unit provides. -/
  name : Option String := none
  /-- Units that are needed. A name ending in `.*` stands for all units below it. -/
  requires : NameSet := []
  /-- Units that are wanted where they exist. -/
  wants : NameSet := []
  /-- Units that need not be loaded before this one, whatever else says so. -/
  breaks : NameSet := []
  /-- Patterns of other files that the unit uses. -/
  assets : NameSet := []
  deriving DecidableEq, Repr, Inhabited

namespace Manifest

def fieldNames : List String := ["name", "requires", "optional", "breaks", "assets"]

/-- The name in a data value; it may be missing or null. -/
def nameOf? : Option Data → Option (Option String)
  | none | some .null => some none
  | some value => value.text?.map some

/-- The manifest that a written data value describes. All fields but the name are
needed. -/
def ofWritten? (w : Written) : Option Manifest := do
  match ← w.record? fieldNames with
  | [name, some requires, some wants, some breaks, some assets] =>
    return {
      name := ← nameOf? name
      requires := ← requires.nameSet?
      wants := ← wants.nameSet?
      breaks := ← breaks.nameSet?
      assets := ← assets.nameSet? }
  | _ => none

end Manifest

structure CompilationUnit where
  id : String
  manifest : Manifest := {}
  /-- Names that the unit uses and does not declare. -/
  shared : NameSet := []
  /-- Dotted names whose first part the unit does not declare. -/
  packages : NameSet := []
  deriving DecidableEq, Repr, Inhabited

namespace CompilationUnit

def ofScope (id : String) (manifest : Manifest) (scope : Scope) : CompilationUnit where
  id
  manifest
  shared := scope.shared.map (·.1)
  packages := scope.packages

/-- Whether one of two units breaks the dependency between them. -/
def isBrokenWith (u v : CompilationUnit) : Bool :=
  u.manifest.breaks.contains v.id || v.manifest.breaks.contains u.id

end CompilationUnit

end ScriptMin
