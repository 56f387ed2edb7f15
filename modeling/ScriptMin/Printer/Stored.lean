import ScriptMin.Printer.Print
import ScriptMin.Tree.Store

/-!
Text of the nodes of a store.
-/

namespace ScriptMin.Store

def isUnderCall (s : Store) (id : NodeId) : Bool :=
  (s.parentKind? id).any (· matches .call | .newArgs)

def isSoleArgument (s : Store) (id : NodeId) : Bool :=
  match s.parent? id with
  | some list => s.kind list == .list && (s.children list).length == 1 && s.isUnderCall list
  | none => false

def site (s : Store) (id : NodeId) : Printer.Site where
  tree := s.view id
  underCall := s.isUnderCall id
  soleArgument := s.isSoleArgument id

def render (s : Store) (options : PrintOptions) (id : NodeId) : String :=
  (s.site id).render options

end ScriptMin.Store
