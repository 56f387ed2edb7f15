import ScriptMin.Text.Blank

/-!
Comments, which the scanner collects beside the tokens.
-/

namespace ScriptMin

inductive CommentForm where
  | singleLine
  | multiLine
  /-- Starts with two stars. -/
  | doc
  /-- Starts with a star and an exclamation mark. -/
  | guarded
  deriving DecidableEq, Repr

/-- Place of a comment relative to the code around it. -/
inductive CommentContext where
  /-- Starts on the line of the code before it. -/
  | inline
  /-- Stands right above the code below it. -/
  | block
  /-- Stands behind a blank line and heads the code below it. -/
  | heading
  /-- Is followed by a blank line and belongs to no code. -/
  | free
  deriving DecidableEq, Repr

def CommentForm.ofText (text : List Char) : CommentForm :=
  if ['/', '/'].isPrefixOf text then .singleLine
  else if ['/', '*', '!'].isPrefixOf text then .guarded
  else if ['/', '*', '*'].isPrefixOf text && text != ['/', '*', '*', '/'] then .doc
  else .multiLine

def CommentForm.opening : CommentForm → List Char
  | .singleLine => ['/', '/']
  | .multiLine => ['/', '*']
  | .doc => ['/', '*', '*']
  | .guarded => ['/', '*', '!']

def CommentForm.closing : CommentForm → List Char
  | .singleLine => []
  | _ => ['*', '/']

/-- A comment as written, with its place. -/
structure Comment where
  text : String
  context : CommentContext
  line : Nat
  endLine : Nat
  deriving DecidableEq, Repr

namespace Comment

def form (c : Comment) : CommentForm := .ofText c.text.toList

def inner? (opening closing text : List Char) : Option (List Char) :=
  if opening.isPrefixOf text then
    let rest := text.drop opening.length
    if closing.isSuffixOf rest then some (rest.take (rest.length - closing.length)) else none
  else none

/-- The text of a comment without its delimiters and the white space inside them. -/
def body (c : Comment) : String :=
  let text := c.text.toList
  let inner := (inner? c.form.opening c.form.closing text).getD text
  String.ofList (Text.trimChars inner)

/-- Marks a comment as free if a blank line separates it from code on the given
line. Inline comments stay with their code. -/
def settle (tokenLine : Nat) (c : Comment) : Comment :=
  if c.context != .inline && tokenLine > Text.nextLine c.endLine then { c with context := .free }
  else c

end Comment

end ScriptMin
