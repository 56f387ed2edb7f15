import ScriptMin.Pass.Blocks
import ScriptMin.Pass.Branches
import ScriptMin.Pass.Declarations
import ScriptMin.Pass.Privates
import ScriptMin.Pass.Substitution
import ScriptMin.Pass.Unused
import ScriptMin.Pipeline.Options

/-!
Compilation of one text: the passes in a fixed order, then printing. A pass that refuses
the tree is skipped: the tree is as before it, and the refusal is reported. A text that
cannot be read ends the compilation.
-/

namespace ScriptMin

structure Compiled where
  code : String
  /-- Reports on the passes that were skipped. -/
  skipped : List Diagnostic
  deriving DecidableEq, Repr

namespace Pipeline

def maxBlockRounds : Nat := 10

/-- Removes the branches that are never taken and scans what is left. -/
def removeBranches : Pass Bool := do
  let changed ← removeDeadBranches
  modify Store.scanTree
  return changed

def passes (o : PipelineOptions) (p : Permutation) : List (Pass Bool) :=
  [substitute p, removeBranches, removeUnused] ++
  (if o.optimization.declarations then [liftM combineDeclarations] else []) ++
  (if o.optimization.blocks then [liftM (repeatEdit reduceBlocks maxBlockRounds)] else []) ++
  (if o.optimization.locals then [renameLocals] else []) ++
  (if o.optimization.privates then [replacePrivates o.contextId] else [])

/-- A tree on its way through the passes. -/
structure Progress where
  store : Store
  /-- Refusals of the passes that were skipped, with the lines. -/
  skipped : List (Refusal × Nat) := []
  deriving Repr

/-- Runs a pass. If it refuses the tree, the tree stays as it was. -/
def step (progress : Progress) (pass : Pass Bool) : Except Fault Progress :=
  match pass.run.run progress.store with
  | (.ok _, store) => .ok { progress with store }
  | (.error (.refused cause line), _) =>
    .ok { progress with skipped := progress.skipped ++ [(cause, line)] }
  | (.error (.text fault), _) => .error fault

def run (passes : List (Pass Bool)) (t : Tree) : Except Fault Progress :=
  passes.foldlM step { store := .ofTree t }

end Pipeline

def compile (o : PipelineOptions) (p : Permutation) (file source : String) :
    Except Diagnostic Compiled :=
  let result := do Pipeline.run (Pipeline.passes o p) (← parseScript source 1)
  match result with
  | .error fault => .error (fault.report file)
  | .ok progress => .ok {
      code := progress.store.render o.printing progress.store.root
      skipped := progress.skipped.map fun (cause, line) =>
        (PassFault.refused cause line).report file }

theorem compile_eq (o : PipelineOptions) (p : Permutation) (file source : String) :
    compile o p file source =
      match parseScript source 1 >>= Pipeline.run (Pipeline.passes o p) with
      | .error fault => .error (fault.report file)
      | .ok progress => .ok {
          code := progress.store.render o.printing progress.store.root
          skipped := progress.skipped.map fun (cause, line) =>
            (PassFault.refused cause line).report file } := by
  unfold compile
  rfl

end ScriptMin
