import ScriptMin.Pass.Basic

/-!
Edits of statements that several passes share.
-/

namespace ScriptMin

mutual
/-- Whether evaluating an expression can have no effect beyond its value. -/
def Tree.isEffectFree : Tree → Bool
  | .node head children =>
    match head.kind with
    | .number | .string | .regExp | .trueLit | .falseLit | .nullLit | .thisRef | .identifier
    | .function | .hole => true
    | .arrayInit => Tree.areEffectFree children
    | _ => false

/-- Whether evaluating several expressions can have no effect beyond their values. -/
def Tree.areEffectFree : List Tree → Bool
  | [] => true
  | t :: rest => Tree.isEffectFree t && Tree.areEffectFree rest
end

namespace Store

/-- Takes a statement away. Where a statement is needed, an empty one takes its place. -/
def removeStatement (id : NodeId) (s : Store) : Store :=
  if s.inStatementList id then s.remove id
  else
    let (empty, s) := s.add { kind := .semicolon, span := s.span id }
    s.replace id empty

def declaresBlockNames (s : Store) (block : NodeId) : Bool :=
  (s.children block).any fun c => s.kind c matches .letList | .constList

def spliceBefore (block anchor : NodeId) (s : Store) : Store :=
  ((s.children block).foldl (fun s child => s.insertBefore anchor child) s).remove anchor

/-- Puts a statement where another one is. In a list of statements a block is dissolved,
unless names are visible only inside it. -/
def replaceStatement (old new : NodeId) (s : Store) : Store :=
  if s.inStatementList old && s.kind new == .block && !s.declaresBlockNames new then
    s.spliceBefore new old
  else s.replace old new

def wrapExpression (expression : NodeId) (s : Store) : NodeId × Store :=
  let (statement, s) := s.add { kind := .semicolon, span := s.span expression }
  (statement, s.appendAs statement .expression expression)

def expressionOf? (s : Store) (statement : NodeId) : Option NodeId :=
  if s.kind statement = .semicolon then s.child? statement .expression else none

end Store

end ScriptMin
