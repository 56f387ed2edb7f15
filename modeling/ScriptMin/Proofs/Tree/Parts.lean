import ScriptMin.Printer.Print

/-!
Parts of trees by the roles that they have, and trees in other roles.
-/

namespace ScriptMin.Tree

/-! ### Roles -/

def inRole (role : Option Role) (t : Tree) : Tree := t.mapHead fun h => { h with role }

theorem mapHead_eq (f : Head → Head) (t : Tree) : t.mapHead f = .node (f t.head) t.children := by
  cases t
  rfl

@[simp] theorem mapHead_self (t : Tree) : (t.mapHead fun h => h) = t := by cases t; rfl

@[simp] theorem inRole_inRole (role role' : Option Role) (t : Tree) :
    (t.inRole role).inRole role' = t.inRole role' := by cases t; rfl

@[simp] theorem head_inRole (role : Option Role) (t : Tree) :
    (t.inRole role).head = { t.head with role } := by cases t; rfl

@[simp] theorem children_inRole (role : Option Role) (t : Tree) :
    (t.inRole role).children = t.children := by cases t; rfl

/-- No role occurs more than once below a node. -/
def hasDistinctRoles (t : Tree) : Prop := t.children.Pairwise fun a b => a.head.role ≠ b.head.role

/-! ### Statements -/

structure IsIf (t condition thenPart : Tree) (elsePart : Option Tree) : Prop where
  kind : t.kind = .ifElse
  condition : t.child? .condition = some condition
  thenPart : t.child? .thenPart = some thenPart
  elsePart : t.child? .elsePart = elsePart

def expression? (t : Tree) : Option Tree :=
  if t.kind = .semicolon then t.child? .expression else none

def returned? (t : Tree) : Option Tree := if t.kind = .returnStmt then t.child? .value else none

def leavesFunction (t : Tree) : Bool :=
  match t.kind with
  | .returnStmt | .throwStmt => true
  | .block => t.children.getLast?.any (·.kind matches .returnStmt | .throwStmt)
  | _ => false

def declaresBlockNames (t : Tree) : Bool := t.children.any (·.kind matches .letList | .constList)

/-! ### Assignments -/

/-- A target that is a name or a member, not a pattern. -/
def isPlainTarget (t : Tree) : Prop := t.kind = .identifier ∨ t.kind = .dot ∨ t.kind = .index

/-- Two assignments that have the same operator and, as written, the same target. -/
structure AssignAlike (first second x y a b : Tree) : Prop where
  kind_first : first.kind = .assign
  kind_second : second.kind = .assign
  operator : first.head.assignOp = second.head.assignOp
  target_first : first.nth? 0 = some x
  target_second : second.nth? 0 = some y
  value_first : first.nth? 1 = some a
  value_second : second.nth? 1 = some b
  target : x.isPlainTarget
  written : x.render {} = y.render {}

end ScriptMin.Tree
