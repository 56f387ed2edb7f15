import ScriptMin.Data.Record
import ScriptMin.Printer.Options

/-!
What the pipeline can be asked for, and its form as a data value.
-/

namespace ScriptMin

structure Optimization where
  /-- Combine the declarations of each body. -/
  declarations : Bool := true
  /-- Reduce blocks, statements and expressions. -/
  blocks : Bool := true
  /-- Rename the local names of functions. -/
  locals : Bool := true
  /-- Replace private member names. -/
  privates : Bool := true
  /-- Further bits of the data form. They ask for nothing. -/
  further : Nat := 0
  deriving DecidableEq, Repr, Inhabited

namespace Optimization

def none : Optimization where
  declarations := false
  blocks := false
  locals := false
  privates := false

def switch? : String → Option (Optimization → Optimization)
  | "declarations" => some fun o => { o with declarations := true }
  | "blocks" => some fun o => { o with blocks := true }
  | "variables" => some fun o => { o with locals := true }
  | "privates" => some fun o => { o with privates := true }
  | _ => Option.none

def ofNames (text : String) : Except UnknownOption Optimization :=
  Text.readNames switch? none text

def bitNames : List String := ["DECLARATIONS", "BLOCKS", "VARIABLES", "PRIVATES"]

def toBits (o : Optimization) : Nat :=
  o.declarations.toNat + 2 * o.blocks.toNat + 4 * o.locals.toNat + 8 * o.privates.toNat +
    16 * o.further

def ofBits (bits : Nat) : Optimization where
  declarations := bits.testBit 0
  blocks := bits.testBit 1
  locals := bits.testBit 2
  privates := bits.testBit 3
  further := bits / 16

end Optimization

structure PipelineOptions where
  optimization : Optimization := {}
  formatting : Formatting := {}
  /-- Context that the replacements of private names depend on. -/
  contextId : String := ""
  /-- Characters from this code on are written as escapes in strings. -/
  asciiThreshold : Nat := 128
  deriving DecidableEq, Repr, Inhabited

namespace PipelineOptions

def printing (o : PipelineOptions) : PrintOptions where
  formatting := o.formatting
  asciiThreshold := o.asciiThreshold

def fieldNames : List String := ["optimization", "formatting", "context_id", "ascii_threshold"]

def toData (o : PipelineOptions) : Data :=
  .object (fieldNames.zip [
    .string (Data.flagText Optimization.bitNames o.optimization.toBits),
    .string (Data.flagText Formatting.bitNames o.formatting.toBits),
    .string o.contextId,
    .int o.asciiThreshold])

/-- The options that a written data value describes. All fields are needed. -/
def ofWritten? (w : Written) : Option PipelineOptions := do
  match ← w.record? fieldNames with
  | [some optimization, some formatting, some contextId, some asciiThreshold] =>
    return {
      optimization := .ofBits (← Data.flags? Optimization.bitNames (← optimization.text?))
      formatting := .ofBits (← Data.flags? Formatting.bitNames (← formatting.text?))
      contextId := ← contextId.text?
      asciiThreshold := ← asciiThreshold.word? }
  | _ => none

end PipelineOptions

end ScriptMin
