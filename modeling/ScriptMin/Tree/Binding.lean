import ScriptMin.Tree.Basic

/-!
Names in trees: those a pattern binds, and dotted names.
-/

namespace ScriptMin.Tree

mutual
/-- The names that a name or pattern binds, in order. -/
def boundNames : Tree → List String
  | .node head children =>
    match head.kind with
    | .identifier => [head.text]
    | .arrayInit => boundNamesList children
    | .objectInit => boundNamesOfFields children
    | _ => []

def boundNamesList : List Tree → List String
  | [] => []
  | t :: rest => boundNames t ++ boundNamesList rest

def boundNamesOfFields : List Tree → List String
  | [] => []
  | .node _ [] :: rest => boundNamesOfFields rest
  | .node _ (_ :: values) :: rest => boundNamesOfFirst values ++ boundNamesOfFields rest

def boundNamesOfFirst : List Tree → List String
  | [] => []
  | t :: _ => boundNames t
end

mutual
/-- Text of a member chain made of names only, like `a.b.c`. -/
def dottedName? : Tree → Option String
  | .node head children =>
    match head.kind with
    | .identifier => some head.text
    | .dot => dottedNameOfParts? children
    | _ => none

/-- Text of a member chain given by its object and its property. -/
def dottedNameOfParts? : List Tree → Option String
  | object :: property :: _ =>
    (dottedName? object).map fun text => text ++ "." ++ property.head.text
  | _ => none
end

end ScriptMin.Tree
