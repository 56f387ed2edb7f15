import ScriptMin.Scope

/-!
A store of tree nodes. Nodes are known by numbers that stay valid when the tree around
them changes, so that passes can move, replace and remove them. A node that is attached
has one parent and occurs once among its children; other nodes stay in the store without
being reachable from the root.
-/

namespace ScriptMin

abbrev NodeId := Nat

structure Node where
  head : Head
  parent : Option NodeId := none
  children : List NodeId := []
  /-- Scope of the body that the node owns, as of the last scan. -/
  scope : Option Scope := none
  deriving DecidableEq, Repr, Inhabited

structure Store where
  nodes : Array Node := #[]
  /-- The root, the first node unless one is chosen. -/
  chosenRoot : Option NodeId := none
  deriving Repr, Inhabited

namespace Store

/-! ### Looking -/

def size (s : Store) : Nat := s.nodes.size

def root (s : Store) : NodeId := s.chosenRoot.getD 0

def node (s : Store) (id : NodeId) : Node := s.nodes[id]?.getD default

def head (s : Store) (id : NodeId) : Head := (s.node id).head

def kind (s : Store) (id : NodeId) : Kind := (s.head id).kind

def span (s : Store) (id : NodeId) : Span := (s.head id).span

def flags (s : Store) (id : NodeId) : Flags := (s.head id).flags

def role? (s : Store) (id : NodeId) : Option Role := (s.head id).role

/-- Text of a node, empty if it carries none. -/
def text (s : Store) (id : NodeId) : String := (s.head id).text

def text? (s : Store) (id : NodeId) : Option String := (s.head id).text?

def number? (s : Store) (id : NodeId) : Option Number := (s.head id).number?

def parent? (s : Store) (id : NodeId) : Option NodeId := (s.node id).parent

def parentKind? (s : Store) (id : NodeId) : Option Kind := (s.parent? id).map s.kind

def children (s : Store) (id : NodeId) : List NodeId := (s.node id).children

def nth? (s : Store) (id : NodeId) (i : Nat) : Option NodeId := (s.children id)[i]?

def child? (s : Store) (id : NodeId) (role : Role) : Option NodeId :=
  (s.children id).find? fun c => s.role? c == some role

def indexOf? (s : Store) (id : NodeId) : Option Nat := do
  (s.children (← s.parent? id)).findIdx? (· == id)

def inStatementList (s : Store) (id : NodeId) : Bool :=
  (s.parentKind? id).any Kind.isStatementList

def ancestryFrom (s : Store) : Nat → NodeId → List NodeId
  | 0, id => [id]
  | fuel + 1, id =>
    id :: match s.parent? id with
      | some parent => ancestryFrom s fuel parent
      | none => []

def ancestry (s : Store) (id : NodeId) : List NodeId := s.ancestryFrom s.size id

def ancestor? (s : Store) (id : NodeId) (kinds : List Kind) : Option NodeId :=
  (s.ancestry id).find? fun a => kinds.contains (s.kind a)

def isInside (s : Store) (id other : NodeId) : Bool := (s.ancestry id).contains other

/-- A node and all nodes below it that are reached through nodes satisfying a test,
parents before children. -/
def preorderFrom (s : Store) (enter : NodeId → Bool) : Nat → NodeId → List NodeId
  | 0, id => [id]
  | fuel + 1, id =>
    id :: if enter id then (s.children id).flatMap (preorderFrom s enter fuel) else []

/-- A node and all nodes below it, parents before children. -/
def descendants (s : Store) (id : NodeId) : List NodeId := s.preorderFrom (fun _ => true) s.size id

/-- A node and all nodes below it down to a depth, children before parents. -/
def postorderFrom (s : Store) : Nat → NodeId → List NodeId
  | 0, id => [id]
  | depth + 1, id => (s.children id).flatMap (postorderFrom s depth) ++ [id]

/-- A node and all nodes below it, children before parents. -/
def postorder (s : Store) (id : NodeId) : List NodeId := s.postorderFrom s.size id

/-- The nodes below a body, parents before children, without what is inside nested
functions. -/
def bodyNodes (s : Store) (body : NodeId) : List NodeId :=
  (s.children body).flatMap (s.preorderFrom (fun id => s.kind id != .function) s.size)

def viewFrom (s : Store) : Nat → NodeId → Tree
  | 0, id => .node (s.head id) []
  | depth + 1, id => .node (s.head id) ((s.children id).map (viewFrom s depth))

def view (s : Store) (id : NodeId) : Tree := s.viewFrom s.size id

/-! ### Changing nodes -/

def modifyNode (id : NodeId) (f : Node → Node) (s : Store) : Store :=
  { s with nodes := s.nodes.modify id f }

def modifyHead (id : NodeId) (f : Head → Head) (s : Store) : Store :=
  s.modifyNode id fun n => { n with head := f n.head }

def setKind (id : NodeId) (kind : Kind) (s : Store) : Store :=
  s.modifyHead id fun h => { h with kind }

def setRole (id : NodeId) (role : Option Role) (s : Store) : Store :=
  s.modifyHead id fun h => { h with role }

def setPayload (id : NodeId) (payload : Payload) (s : Store) : Store :=
  s.modifyHead id fun h => { h with payload }

def setText (id : NodeId) (text : String) (s : Store) : Store := s.setPayload id (.text text)

def setAssignOp (id : NodeId) (op : Option Kind) (s : Store) : Store :=
  s.modifyHead id fun h => { h with assignOp := op }

def setParenthesized (id : NodeId) (on : Bool) (s : Store) : Store :=
  s.modifyHead id fun h => { h with flags := { h.flags with parenthesized := on } }

def setRoot (id : NodeId) (s : Store) : Store := { s with chosenRoot := some id }

/-! ### Moving nodes -/

/-- Takes a node away from its parent. It keeps its role. -/
def detach (id : NodeId) (s : Store) : Store :=
  match s.parent? id with
  | none => s
  | some parent =>
    (s.modifyNode id fun n => { n with parent := none }).modifyNode parent fun n =>
      { n with children := n.children.filter (· ≠ id) }

/-- Takes a node away from its parent and out of its role. -/
def remove (id : NodeId) (s : Store) : Store := (s.detach id).setRole id none

/-- Makes a node a child at a position, or the last child if there are fewer. -/
def insert (parent : NodeId) (index : Nat) (child : NodeId) (s : Store) : Store :=
  ((s.detach child).modifyNode child fun n => { n with parent := some parent }).modifyNode parent
    fun n => { n with children := n.children.insertIdx (min index n.children.length) child }

def append (parent child : NodeId) (s : Store) : Store :=
  ((s.detach child).modifyNode child fun n => { n with parent := some parent }).modifyNode parent
    fun n => { n with children := n.children ++ [child] }

def appendAs (parent : NodeId) (role : Role) (child : NodeId) (s : Store) : Store :=
  (s.append parent child).setRole child (some role)

def insertAfter (sibling child : NodeId) (s : Store) : Store :=
  match s.parent? sibling, s.indexOf? sibling with
  | some parent, some index => s.insert parent (index + 1) child
  | _, _ => s

def insertBefore (sibling child : NodeId) (s : Store) : Store :=
  match s.parent? sibling, s.indexOf? sibling with
  | some parent, some index => s.insert parent index child
  | _, _ => s

def replaceFirst (old new : NodeId) : List NodeId → List NodeId
  | [] => []
  | id :: rest => if id = old then new :: rest else id :: replaceFirst old new rest

/-- Puts a node where another one is, also as the root. It takes over the role, and the
other node is detached. -/
def replace (old new : NodeId) (s : Store) : Store :=
  if old = new then s
  else
    let s := s.detach new
    let s := s.setRole new (s.role? old)
    match s.parent? old with
    | some parent =>
      let s := s.modifyNode old fun n => { n with parent := none }
      let s := s.modifyNode parent fun n => { n with children := replaceFirst old new n.children }
      s.modifyNode new fun n => { n with parent := some parent }
    | none => if s.chosenRoot = some old then s.setRoot new else s

def moveChildren (source target : NodeId) (s : Store) : Store :=
  let moved := s.children source
  let s := s.modifyNode source fun n => { n with children := [] }
  let s :=
    moved.foldl (fun s child => s.modifyNode child fun n => { n with parent := some target }) s
  s.modifyNode target fun n => { n with children := n.children ++ moved }

/-! ### Adding nodes -/

def add (head : Head) (s : Store) : NodeId × Store :=
  (s.size, { s with nodes := s.nodes.push { head } })

mutual
/-- Adds a tree whose topmost node is detached. -/
def graft (t : Tree) (s : Store) : NodeId × Store :=
  match t with
  | .node head children =>
    let (id, s) := s.add head
    (id, graftBelow id children s)

/-- Adds several trees and makes them the last children of a node. They keep their roles. -/
def graftBelow (parent : NodeId) (ts : List Tree) (s : Store) : Store :=
  match ts with
  | [] => s
  | t :: rest =>
    let (id, s) := graft t s
    graftBelow parent rest ((s.append parent id).setRole id (s.role? id))
end

/-- Adds a copy of the tree at a node. The copy is detached and has no scopes. -/
def copy (id : NodeId) (s : Store) : NodeId × Store := s.graft (s.view id)

def ofTree (t : Tree) : Store :=
  let (id, s) := graft t {}
  s.setRoot id

/-! ### Bindings and scopes -/

/-- The nodes of the names that a name or pattern binds, in order. -/
def bindingsFrom (s : Store) : Nat → NodeId → List NodeId
  | 0, _ => []
  | fuel + 1, id =>
    match s.kind id with
    | .identifier => [id]
    | .arrayInit => (s.children id).flatMap (bindingsFrom s fuel)
    | .objectInit =>
      (s.children id).flatMap fun property =>
        match s.nth? property 1 with
        | some value => bindingsFrom s fuel value
        | none => []
    | _ => []

def bindings (s : Store) (id : NodeId) : List NodeId := s.bindingsFrom (s.size + 1) id

/-- The children that a scan of the body around a node goes into. -/
def scannedChildren (s : Store) (id : NodeId) : List NodeId :=
  match s.kind id with
  | .function =>
    match s.child? id .body with
    | some body => s.children body
    | none => []
  | .dot => (s.nth? id 0).toList
  | .propertyInit => (s.nth? id 1).toList
  | .declaration => (s.child? id .initializer).toList
  | .catchClause => (s.child? id .guard).toList ++ (s.child? id .block).toList
  | _ => s.children id

/-- The functions that a scan meets at a node and below. -/
def scannedFunctions (s : Store) : Nat → NodeId → List NodeId
  | 0, _ => []
  | fuel + 1, id =>
    let below := (s.scannedChildren id).flatMap (scannedFunctions s fuel)
    if s.kind id = .function then id :: below else below

/-- The owners of all bodies that a scan of a body meets, the body itself first. -/
def scanOwners (s : Store) (owner : NodeId) : List NodeId :=
  let below :=
    if s.kind owner = .function then s.scannedChildren owner else s.children owner
  owner :: below.flatMap (s.scannedFunctions (s.size + 1))

/-- Scans a body: every owner of a body in it gets its scope. -/
def scan (owner : NodeId) (s : Store) : Store :=
  (s.scanOwners owner).foldl
    (fun acc id => acc.modifyNode id fun n => { n with scope := some (s.view id).scope }) s

def scanTree (s : Store) : Store := s.scan s.root

def scope? (s : Store) (id : NodeId) : Option Scope := (s.node id).scope

def clearScopes (id : NodeId) (s : Store) : Store :=
  (s.descendants id).foldl
    (fun acc id => acc.modifyNode id fun n => { n with scope := none }) s

end Store

end ScriptMin
