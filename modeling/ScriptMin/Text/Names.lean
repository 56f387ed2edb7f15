import ScriptMin.Diagnostic
import ScriptMin.Text.Blank

/-!
Lists of option names, as in `"semicolon, comma"`.
-/

namespace ScriptMin.Text

/-- The parts of a text between separators; one more than there are separators. -/
def splitChars (separator : Char) : List Char → List (List Char)
  | [] => [[]]
  | c :: rest =>
    if c = separator then [] :: splitChars separator rest
    else
      match splitChars separator rest with
      | part :: parts => (c :: part) :: parts
      | [] => [[c]]

/-- The names between commas, trimmed, without empty ones. -/
def listedNames (text : String) : List String :=
  ((splitChars ',' text.toList).map trimChars).filterMap fun name =>
    if name.isEmpty then none else some (String.ofList name)

/-- Reads a list of names that each switch something on. Names are compared in lower
case, and the first unknown one is refused as written. -/
def readNames {α : Type} (switch : String → Option (α → α)) (initial : α) (text : String) :
    Except UnknownOption α :=
  (listedNames text).foldlM (fun value name =>
    match switch (name.map Char.toLower) with
    | some set => .ok (set value)
    | none => .error ⟨name⟩) initial

end ScriptMin.Text
