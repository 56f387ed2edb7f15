import ScriptMin.Text.Names

/-!
What the printer can be asked for.
-/

namespace ScriptMin

/-- Additions to the most compact text. -/
structure Formatting where
  /-- Keep the semicolon before a closing brace. -/
  semicolon : Bool := false
  /-- Put a space behind the comma of a list. -/
  comma : Bool := false
  /-- Further bits of the data form. They ask for nothing. -/
  further : Nat := 0
  deriving DecidableEq, Repr, Inhabited

namespace Formatting

def switch? : String → Option (Formatting → Formatting)
  | "semicolon" => some fun f => { f with semicolon := true }
  | "comma" => some fun f => { f with comma := true }
  | _ => none

def ofNames (text : String) : Except UnknownOption Formatting := Text.readNames switch? {} text

def bitNames : List String := ["SEMICOLON", "COMMA"]

def toBits (f : Formatting) : Nat := f.semicolon.toNat + 2 * f.comma.toNat + 4 * f.further

def ofBits (bits : Nat) : Formatting where
  semicolon := bits.testBit 0
  comma := bits.testBit 1
  further := bits / 4

end Formatting

structure PrintOptions where
  formatting : Formatting := {}
  /-- Characters from this code on are written as escapes in strings. -/
  asciiThreshold : Nat := 128
  deriving DecidableEq, Repr, Inhabited

end ScriptMin
