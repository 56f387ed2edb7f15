import ScriptMin.Grammar.Statement

/-!
The grammar: from source text to syntax tree.
-/

namespace ScriptMin

namespace Grammar

def production (self : Self) : Nonterminal → Production Tree
  | .statement => statement self
  | .assignment => assignment self
  | .unary => unary self
  | .member calls => member self calls
  | .pattern => pattern self

/-- The productions with a bound for the depth to which they contain each other. -/
def derive : Nat → Self
  | 0, _ => do reject .budgetSpent (← get).line
  | budget + 1, symbol => production (derive budget) symbol

/-- A whole script. Comments behind its last statement belong to the script. -/
def script (self : Self) : Production Tree := do
  let start : Span := ⟨(← get).line, 0, 0⟩
  let hoisted ← Stream.hoisted
  let statements ← withReader (fun e => { e with hoisted := some hoisted }) <|
    repeatTurns [] fun statements => do
      if ← Stream.isDone then return .done statements.reverse
      return .again ((← self .statement) :: statements)
  let tree := Tree.ofList .script (← spanFrom start) statements
  let comments ← Stream.takeComments
  return tree.attach comments.toList

def wholeExpression (self : Self) : Production Tree := do
  let tree ← expression self
  let token ← next false
  if token.kind = .endOfInput then return tree
  unexpected .endOfInput token

/-- Runs a production on a source text, and gives the tree with the stream that is left.
No token is passed without at most a few nested productions, so both bounds exceed what
any text needs. -/
def outcome (p : Self → Production Tree) (line : Nat) (source : String) :
    Except Fault (Tree × Stream) :=
  let text := source.toList
  let turns := text.length + 2
  let self := derive (8 * turns)
  (p self).run { turns } |>.run (Stream.ofChars line text)

def run (p : Self → Production Tree) (line : Nat) (source : String) : Except Fault Tree :=
  (outcome p line source).map (·.1)

end Grammar

/-- The syntax tree of a script whose first line has the given number. -/
def parseScript (source : String) (line : Nat) : Except Fault Tree :=
  Grammar.run Grammar.script line source

/-- The syntax tree of an expression whose first line has the given number. -/
def parseExpression (source : String) (line : Nat) : Except Fault Tree :=
  Grammar.run Grammar.wholeExpression line source

end ScriptMin
