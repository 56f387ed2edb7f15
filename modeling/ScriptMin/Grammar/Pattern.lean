import ScriptMin.Grammar.Production

/-!
Destructuring patterns and the binding places they stand in.
-/

namespace ScriptMin.Grammar

def propertyKey (token : Token) : Production Tree :=
  match token.kind with
  | .string text => return .textLeaf .string text token.span
  | .number value => return .number value token.span
  | kind =>
    match kind.propertyName? with
    | some name => return .identifier name token.span
    | none => unexpected .propertyName token

def binding (self : Self) (wanted : Wanted) : Production Tree := do
  let token ← peek true
  match token.kind with
  | .punctuator .openBracket | .punctuator .openBrace => self .pattern
  | .identifier name =>
    let _ ← next true
    return .identifier name token.span
  | _ => unexpected wanted token

def arrayPatternElements (self : Self) : Production (List (Option Tree)) :=
  repeatTurns [] fun elements => do
    let token ← peek true
    if token.isPunctuator .closeBracket then
      let _ ← next true
      return .done elements.reverse
    if token.isPunctuator .comma then
      let _ ← next true
      return .again (none :: elements)
    let elements := some (← binding self .variableName) :: elements
    let after ← next false
    if after.isPunctuator .closeBracket then return .done elements.reverse
    if after.isPunctuator .comma then return .again elements
    unexpected .commaOrBracket after

/-- One property of an object pattern, given its first token. A name alone is key and
bound name at once. -/
def propertyPattern (self : Self) (token : Token) : Production Tree := do
  match token.kind with
  | .identifier name =>
    let key := Tree.identifier name token.span
    let value ←
      if ← accept .colon then binding self .variableName
      else pure (.identifier name token.span)
    return .ofList .propertyInit (← spanFrom token.span) [key, value]
  | .string _ | .number _ | .keyword _ =>
    let key ← propertyKey token
    let _ ← expect .colon
    let value ← binding self .variableName
    return .ofList .propertyInit (← spanFrom token.span) [key, value]
  | _ => unexpected .propertyName token

def objectPatternProperties (self : Self) : Production (List Tree) :=
  repeatTurns [] fun properties => do
    let token ← next false
    if token.isPunctuator .closeBrace then return .done properties.reverse
    let properties := (← propertyPattern self token) :: properties
    let after ← next false
    if after.isPunctuator .closeBrace then return .done properties.reverse
    if after.isPunctuator .comma then return .again properties
    unexpected .commaOrBrace after

def pattern (self : Self) : Production Tree := do
  let token ← next true
  match token.kind with
  | .punctuator .openBracket =>
    let elements ← arrayPatternElements self
    return .arrayInit elements (← spanFrom token.span)
  | .punctuator .openBrace =>
    let properties ← objectPatternProperties self
    return .ofList .objectInit (← spanFrom token.span) properties
  | _ => unexpected .pattern token

end ScriptMin.Grammar
