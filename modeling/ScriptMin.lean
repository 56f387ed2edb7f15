import ScriptMin.Bundle.Build
import ScriptMin.Proofs.Bundle.LoadOrder
import ScriptMin.Proofs.Bundle.Remembering
import ScriptMin.Proofs.Printer.StatementRoundTrip
import ScriptMin.Proofs.Pass.DeclarationSoundness
import ScriptMin.Proofs.Pass.Reductions
import ScriptMin.Proofs.Store.Links
import ScriptMin.Proofs.Token.Tiling
import ScriptMin.Proofs.Token.LineBreaks
import ScriptMin.Proofs.Token.Commenting
import ScriptMin.Proofs.Grammar.Comments
import ScriptMin.Proofs.Pass.Jumps
import ScriptMin.Proofs.Bundle.AcyclicOrder
import ScriptMin.Proofs.Pipeline.Settings
import ScriptMin.Proofs.Pipeline.Skipping
import ScriptMin.Proofs.Permutation.Interning
import ScriptMin.Proofs.Pass.Evaluation
import ScriptMin.Proofs.Pass.Replacements
import ScriptMin.Proofs.Store.Bindings
import ScriptMin.Proofs.Store.Owners
import ScriptMin.Proofs.Store.Scanning
import ScriptMin.Proofs.Bundle.Closure
import ScriptMin.Proofs.Token.Literals
import ScriptMin.Proofs.Pass.Sparing
import ScriptMin.Proofs.Bundle.ExactOrder
import ScriptMin.Proofs.Pass.Switches
import ScriptMin.Proofs.Pass.Cutting
import ScriptMin.Proofs.Pass.Undecided
import ScriptMin.Proofs.Pass.Untaken
import ScriptMin.Proofs.Pass.Privates
import ScriptMin.Proofs.Pass.Burdens
import ScriptMin.Proofs.Store.Sweeping
import ScriptMin.Proofs.Store.Siblings
import ScriptMin.Proofs.Pass.Lightening
import ScriptMin.Proofs.Pass.Shifting
import ScriptMin.Proofs.Pass.Agreement
import ScriptMin.Proofs.Pass.Settling
import ScriptMin.Proofs.Pass.Deciding
import ScriptMin.Proofs.Store.Filling
import ScriptMin.Proofs.Pass.Resolving
import ScriptMin.Proofs.Pass.Discarding
import ScriptMin.Proofs.Pass.ReductionParts
import ScriptMin.Proofs.Pass.Parts
import ScriptMin.Proofs.Pass.Accounting
import ScriptMin.Proofs.Token.Rewinding
import ScriptMin.Proofs.Number.Literals
import ScriptMin.Proofs.Printer.Spacing
import ScriptMin.Proofs.Pass.Renaming
import ScriptMin.Proofs.Pass.Assigning
import ScriptMin.Proofs.Pass.Dissolving
import ScriptMin.Proofs.Pass.Combination
