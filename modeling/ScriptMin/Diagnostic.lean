/-!
What the compiler reports: a kind of failure, its text, and the file and line
it refers to.
-/

namespace ScriptMin

/-- Stage that found a problem. -/
inductive Stage where
  /-- Splitting the text into tokens. -/
  | lexical
  /-- Recognising the grammar. -/
  | grammar
  /-- Transforming a tree that is otherwise valid. -/
  | optimization
  deriving DecidableEq, Repr

def Stage.label : Stage → String
  | .lexical => "LexicalError"
  | .grammar => "SyntaxError"
  | .optimization => "OptimizationError"

structure Diagnostic where
  stage : Stage
  message : String
  file : String
  line : Nat
  deriving DecidableEq, Repr

namespace Diagnostic

def display (d : Diagnostic) : String :=
  s!"{d.stage.label} in {d.file}:{d.line}: {d.message}"

/-- A fatal problem ends the compilation of the unit; any other one only ends
the pass that met it. -/
def isFatal (d : Diagnostic) : Bool := d.stage != .optimization

end Diagnostic

structure UnknownOption where
  name : String
  deriving DecidableEq, Repr

def UnknownOption.message (o : UnknownOption) : String :=
  s!"Unknown option: {o.name}"

end ScriptMin
