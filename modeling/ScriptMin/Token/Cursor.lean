import ScriptMin.Text.Blank

/-!
A place in the source text. Passing over a character moves the offset by one and
goes on to the next line for every completed line break, so offset and line are always
those of the text passed over.
-/

namespace ScriptMin

/-- A place in the source: its offset, its line and the text from there on. -/
structure Cursor where
  offset : Nat
  line : Nat
  rest : List Char
  deriving DecidableEq, Repr

namespace Cursor

/-- The first place of a text whose first line has the given number. -/
def start (line : Nat) (text : List Char) : Cursor := ⟨0, line, text⟩

def atEnd (c : Cursor) : Bool := c.rest.isEmpty

def step (c : Cursor) : Cursor :=
  match c.rest with
  | [] => c
  | x :: rest =>
    ⟨c.offset + 1, if Text.completesLine x rest then Text.nextLine c.line else c.line, rest⟩

/-- Passes over a number of characters. -/
def advance : Nat → Cursor → Cursor
  | 0, c => c
  | n + 1, c => advance n c.step

end Cursor

end ScriptMin
