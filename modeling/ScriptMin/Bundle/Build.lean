import ScriptMin.Bundle.LoadOrder
import ScriptMin.Pipeline.Compile

/-!
Builds: the code of all units that are needed, in load order.
-/

namespace ScriptMin

/-- The text of a unit with what it declares. -/
structure SourceUnit where
  id : String
  source : String
  manifest : Manifest := {}
  deriving Repr, Inhabited

/-- Why a build fails. -/
inductive BuildFault where
  | source (report : Diagnostic)
  | dependency (fault : DependencyFault)
  | compilation (report : Diagnostic)
  deriving DecidableEq, Repr

def BuildFault.message : BuildFault → String
  | .source report => "Parse error: " ++ report.display
  | .dependency fault => "Dependency error: " ++ fault.message
  | .compilation report => "Compile error: " ++ report.display

namespace SourceUnit

def analyse (unit : SourceUnit) : Except Diagnostic CompilationUnit :=
  match parseScript unit.source 1 with
  | .error fault => .error (fault.report unit.id)
  | .ok tree => .ok (.ofScope unit.id unit.manifest tree.scope)

/-- Text of the last of several units with an id. -/
def sourceOf (units : List SourceUnit) (id : String) : String :=
  ((units.reverse.find? fun unit => unit.id == id).map (·.source)).getD ""

end SourceUnit

def Universe.ofSources (units : List SourceUnit) : Except Diagnostic Universe :=
  units.foldlM (fun u unit => do return u.add (← unit.analyse)) {}

def Universe.loadOrder (u : Universe) (ids : List String) :
    Except DependencyFault (List String) := do
  let needed ← u.resolve ids
  ((u.sort needed).run.run {}).1

/-- Compiles the needed units and joins their code in load order. -/
def build (o : PipelineOptions) (p : Permutation) (units : List SourceUnit) (ids : List String) :
    Except BuildFault String := do
  let u ← (Universe.ofSources units).mapError .source
  let order ← (u.loadOrder ids).mapError .dependency
  let outputs ← order.mapM fun id =>
    (compile o p id (SourceUnit.sourceOf units id)).mapError .compilation
  return String.join (outputs.map (·.code))

end ScriptMin
