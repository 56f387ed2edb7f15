import ScriptMin.Data.Reader
import ScriptMin.Names
import ScriptMin.Text.Blank
import ScriptMin.Text.Names

/-!
Records as data values: fields with fixed names, sets of names, and flags.
-/

namespace ScriptMin

/-- The values of fields with fixed names. In an object other fields are ignored, whatever
their values stand for, and no field may occur twice; an array gives the values of all
fields in order. -/
def Written.record? (names : List String) : Written → Option (List (Option Data))
  | .object fields => do
    let fields ← fields.mapM fun (name, value) => do return (← Mark.decode? name, value)
    names.mapM fun name =>
      match fields.filter fun field => field.1 == name with
      | [] => some none
      | [(_, value)] => value.value?.map some
      | _ => none
  | .array items =>
    if items.length = names.length then items.mapM fun item => item.value?.map some else none
  | _ => none

namespace Data

def text? : Data → Option String
  | .string text => some text
  | _ => none

def nameSet? : Data → Option NameSet
  | .array items => (items.mapM text?).map NameSet.ofList
  | _ => none

/-- Least number that is too great for a limit or a threshold. -/
def wordLimit : Nat := 0x100000000

/-- The number that a value is, if it is a whole one of at most 32 bits. -/
def word? : Data → Option Nat
  | .int value => if 0 ≤ value ∧ value < wordLimit then some value.toNat else none
  | _ => none

/-! ### Flags

Flags are bits with names. Bits without a name are kept and written as a number. -/

/-- Least number that does not fit into the byte that flags are kept in. -/
def byteLimit : Nat := 256

def hexBits? (text : List Char) : Option Nat :=
  let digits := match text with
    | '+' :: rest => rest
    | _ => text
  let value := Lexeme.digitsValue 16 digits
  if !digits.isEmpty && digits.all (fun c => (Lexeme.hexDigit? c).isSome) && value < byteLimit then
    some value
  else none

def flagBits? (names : List String) (part : List Char) : Option Nat :=
  match part with
  | '0' :: 'x' :: digits => hexBits? digits
  | _ => (names.findIdx? fun name => name.toList == part).map (Nat.pow 2 ·)

/-- Bits given by flags with bars between them. An empty text gives none. -/
def flags? (names : List String) (text : String) : Option Nat :=
  let chars := Text.trimChars text.toList
  if chars.isEmpty then some 0
  else
    ((Text.splitChars '|' chars).map Text.trimChars).foldlM
      (fun bits part => (flagBits? names part).map (bits ||| ·)) 0

/-- Text of flags: their names in order, with bars between them. -/
def flagText (names : List String) (bits : Nat) : String :=
  let set := ((List.range names.length).zip names).filterMap fun (i, name) =>
    if bits.testBit i then some name else none
  let scale := Nat.pow 2 names.length
  let unnamed :=
    if bits < scale then []
    else ["0x" ++ String.ofList (Nat.toDigits 16 (bits / scale * scale))]
  " | ".intercalate (set ++ unnamed)

end Data

end ScriptMin
