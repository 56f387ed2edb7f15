import ScriptMin.Number.Text
import ScriptMin.Text.Quoted

/-!
Data values, as settings have them: JSON with whole numbers kept apart from the others.
-/

namespace ScriptMin

inductive Data where
  | null
  | bool (value : Bool)
  /-- A whole number of at most 64 bits. -/
  | int (value : Int)
  /-- Any other finite number. -/
  | float (value : Number)
  | string (text : String)
  | array (items : List Data)
  | object (fields : List (String × Data))
  deriving Repr

namespace Data

instance : Inhabited Data := ⟨null⟩

/-! ### Text -/

def escapedChar (c : Char) : List Char :=
  match c with
  | '"' => ['\\', '"']
  | '\\' => ['\\', '\\']
  | '\n' => ['\\', 'n']
  | '\r' => ['\\', 'r']
  | '\t' => ['\\', 't']
  | '\x08' => ['\\', 'b']
  | '\x0c' => ['\\', 'f']
  | _ => if c.toNat < 0x20 then '\\' :: 'u' :: Text.hexText 4 c.toNat else [c]

def quotedChars (text : String) : List Char :=
  '"' :: text.toList.flatMap escapedChar ++ ['"']

mutual
def chars : Data → List Char
  | null => "null".toList
  | bool true => "true".toList
  | bool false => "false".toList
  | int value => integerText value
  | float value => value.dataText.toList
  | string text => quotedChars text
  | array items => '[' :: itemChars items
  | object fields => '\x7b' :: fieldChars fields

def itemChars : List Data → List Char
  | [] => [']']
  | [item] => chars item ++ [']']
  | item :: rest => chars item ++ ',' :: itemChars rest

def fieldChars : List (String × Data) → List Char
  | [] => ['\x7d']
  | [(name, value)] => quotedChars name ++ ':' :: chars value ++ ['\x7d']
  | (name, value) :: rest => quotedChars name ++ ':' :: chars value ++ ',' :: fieldChars rest
end

def text (d : Data) : String := String.ofList d.chars

abbrev Writer := Data → String

/-! ### Fields -/

/-- Puts a field into fields that are sorted by name, in place of one of that name. -/
def insertField {α : Type} (name : String) (value : α) : List (String × α) → List (String × α)
  | [] => [(name, value)]
  | (other, old) :: rest =>
    if name < other then (name, value) :: (other, old) :: rest
    else if name = other then (name, value) :: rest
    else (other, old) :: insertField name value rest

/-- The fields sorted by name; of several with one name the last one counts. -/
def sortFields {α : Type} (fields : List (String × α)) : List (String × α) :=
  fields.foldl (fun sorted (name, value) => insertField name value sorted) []

mutual
/-- The value with the fields of all objects sorted. -/
def canonical : Data → Data
  | array items => array (canonicalItems items)
  | object fields => object (sortFields (canonicalFields fields))
  | other => other

def canonicalItems : List Data → List Data
  | [] => []
  | item :: rest => canonical item :: canonicalItems rest

def canonicalFields : List (String × Data) → List (String × Data)
  | [] => []
  | (name, value) :: rest => (name, canonical value) :: canonicalFields rest
end

def number? : Data → Option Number
  | int value => some (.ofInt value)
  | float value => some value
  | _ => none

end Data

end ScriptMin
