import ScriptMin.Fault
import ScriptMin.Tree.Store

/-!
Passes. A pass edits a store and says whether it changed anything. A pass that refuses
a tree leaves the edits it has made so far; who runs it decides what becomes of them.
-/

namespace ScriptMin

/-- Why a pass refuses a tree. -/
inductive Refusal where
  /-- A function uses `eval`, which sees local names. -/
  | usesEval
  /-- A function uses `with`, which hides what names refer to. -/
  | usesWith
  /-- Removing declarations found more to remove in every round. -/
  | unsettled (rounds : Nat)
  /-- A private name stands for a variable. -/
  | privateVariable (name : String)
  /-- Two private names would get the same replacement. -/
  | privateClash (first second replacement : String)
  deriving DecidableEq, Repr

def Refusal.message : Refusal → String
  | .usesEval => "Local variables can not be renamed in a scope using eval"
  | .usesWith => "Local variables can not be renamed in a scope using with"
  | .unsettled rounds => s!"Unused declaration removal did not settle after {rounds} rounds"
  | .privateVariable name => s!"Private name {name} is not used as a member"
  | .privateClash first second replacement =>
    s!"Private names {first} and {second} map to the same name {replacement}"

/-- Why a pass ends early. -/
inductive PassFault where
  /-- A text that the pass puts into the tree is rejected. -/
  | text (fault : Fault)
  /-- The pass refuses the tree because of what is on a line. -/
  | refused (cause : Refusal) (line : Nat)
  deriving DecidableEq, Repr

def PassFault.report (file : String) : PassFault → Diagnostic
  | .text fault => fault.report file
  | .refused cause line => ⟨.optimization, cause.message, file, line⟩

abbrev Edit := StateM Store

/-- A computation that edits a store and may end early. -/
abbrev Pass := ExceptT PassFault Edit

def Pass.refuse {α : Type} (id : NodeId) (cause : Refusal) : Pass α := do
  throw (.refused cause ((← get).span id).line)

/-- Runs an edit on every item in turn and says whether one of them changed anything. -/
def sweep {m : Type → Type} [Monad m] {α : Type} (edit : α → m Bool) : List α → m Bool
  | [] => pure false
  | item :: rest => do
    let changed ← edit item
    let more ← sweep edit rest
    pure (changed || more)

/-- Repeats an edit while it changes something, a bounded number of times, and says
whether it changed anything at all. -/
def repeatEdit {m : Type → Type} [Monad m] (edit : m Bool) : Nat → m Bool
  | 0 => pure false
  | rounds + 1 => do
    if ← edit then
      let _ ← repeatEdit edit rounds
      pure true
    else pure false

end ScriptMin
