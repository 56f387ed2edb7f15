import ScriptMin.Printer.Options

/-!
Text in the making. The semicolon behind a statement is held back until something
follows it, because a closing brace makes it needless. Two pieces that would run
together are kept apart by a space.
-/

namespace ScriptMin.Printer

/-- Text written so far, last character first. -/
structure Output where
  written : List Char := []
  /-- Whether a semicolon is held back. -/
  semicolonDue : Bool := false
  /-- Whether a bare `in` would end the expression, as in the head of a `for`. -/
  noIn : Bool := false
  deriving DecidableEq, Repr, Inhabited

abbrev Writing := ReaderT PrintOptions (StateM Output)

def isWordChar (c : Char) : Bool :=
  c.isAlphanum || c == '_' || c == '$' || c == '\\' || c.toNat ≥ 128

/-- Whether two characters next to each other would make another token. -/
def runsTogether (last first : Char) : Bool :=
  (isWordChar last && isWordChar first) || (last == '+' && first == '+') ||
    (last == '-' && first == '-') || (last == '/' && first == '/')

namespace Output

def flush (o : Output) : Output :=
  if o.semicolonDue then { o with written := ';' :: o.written, semicolonDue := false } else o

def write (text : List Char) (o : Output) : Output :=
  match text with
  | [] => o
  | first :: _ =>
    let o := o.flush
    let space := o.written.head?.any fun last => runsTogether last first
    let before := if space then ' ' :: o.written else o.written
    { o with written := text.reverseAux before }

def text (o : Output) : String := String.ofList o.flush.written.reverse

end Output

def write (text : String) : Writing Unit := modify (Output.write text.toList)

/-- Ends a statement with a semicolon that may turn out to be needless. -/
def endStatement : Writing Unit := modify fun o => { o with semicolonDue := true }

def separator : Writing Unit := do
  write (if (← read).formatting.comma then ", " else ",")

/-- Writes a closing brace, without the semicolon before it unless that is asked for. -/
def closeBrace : Writing Unit := do
  unless (← read).formatting.semicolon do modify fun o => { o with semicolonDue := false }
  write "\x7d"

def allowIn (w : Writing Unit) : Writing Unit := do
  let saved := (← get).noIn
  modify fun o => { o with noIn := false }
  w
  modify fun o => { o with noIn := saved }

/-- Writes something where a bare `in` would end it. Behind it `in` is an operator. -/
def forbidIn (w : Writing Unit) : Writing Unit := do
  modify fun o => { o with noIn := true }
  w
  modify fun o => { o with noIn := false }

end ScriptMin.Printer
