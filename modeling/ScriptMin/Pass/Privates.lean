import ScriptMin.Digest
import ScriptMin.Pass.Locals

/-!
Replacement of private member names. A name like `__name` is private by convention. It
is replaced by a digest of itself and of a context, which is the same wherever the name
occurs within the context.
-/

namespace ScriptMin.Privates

def isPrivateChar (c : Char) : Bool := c.isAlpha || c.isDigit

def isPrivate (name : String) : Bool :=
  match name.toList with
  | '_' :: '_' :: rest => !rest.isEmpty && rest.all isPrivateChar
  | _ => false

/-- Replacement of a private name in a context, by what a digest makes of both. -/
def replacementBy (digest : Digest.Method) (context name : String) : String :=
  "__" ++ Text.compactNumeral (Digest.wordBy digest (context ++ "." ++ name))

def replacement (context name : String) : String := replacementBy Digest.ofBytes context name

def privateName? (s : Store) (id : NodeId) : Option String :=
  match s.kind id with
  | .identifier | .declaration | .function => (s.text? id).filter isPrivate
  | _ => none

def isMember (s : Store) (id : NodeId) : Bool :=
  match s.kind id with
  | .identifier => Locals.isPropertyName s id
  | .function => Tree.isAccessor (s.head id)
  | _ => false

abbrev Replacements := List (String × String)

/-- Adds the replacement of a name. Two names with the same one are refused. -/
def addReplacement (digest : Digest.Method) (context : String) (found : Replacements)
    (member : NodeId × String) : Pass Replacements := do
  let (id, name) := member
  if (found.lookup name).isSome then return found
  let new := replacementBy digest context name
  match found.find? fun (_, other) => other == new with
  | some (first, _) => Pass.refuse id (.privateClash first name new)
  | none => return found ++ [(name, new)]

/-- The nodes of the tree that carry private names, with these names. -/
def members (s : Store) : List (NodeId × String) :=
  (s.descendants s.root).filterMap fun id => (privateName? s id).map (id, ·)

end ScriptMin.Privates

namespace ScriptMin

/-- Replaces private member names by what a digest makes of them. Refuses a tree in which
a private name stands for a variable or two private names have the same replacement. -/
def replacePrivatesBy (digest : Digest.Method) (context : String) : Pass Bool := do
  let s ← get
  let members := Privates.members s
  match members.find? fun (id, _) => !Privates.isMember s id with
  | some (id, name) => Pass.refuse id (.privateVariable name)
  | none =>
    let replacements ← members.foldlM (Privates.addReplacement digest context) []
    set (members.foldl
      (fun s (id, name) => s.setText id ((replacements.lookup name).getD name)) s)
    return !members.isEmpty

def replacePrivates (context : String) : Pass Bool := replacePrivatesBy Digest.ofBytes context

end ScriptMin
