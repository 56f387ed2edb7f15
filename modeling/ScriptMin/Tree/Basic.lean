import ScriptMin.Comment
import ScriptMin.Number.Basic
import ScriptMin.Span
import ScriptMin.Tree.Kind

/-!
Syntax trees. A node has a head, which says what it is, and children in order.
Operators have their operands as plain children. Other children are found by the
role they have for their parent:

* a script or block has statements;
* an expression statement has an `expression`, the empty statement none;
* `if` has `condition`, `thenPart` and perhaps `elsePart`;
* `switch` has a `discriminant` and clauses, a clause a `label` (not the default) and a
  block of `statements`;
* loops have a `body` and what their head shows: `setup`, `condition`, `update`, or
  `iterator` and `object`;
* `try` has a `tryBlock`, catch clauses and perhaps a `finallyBlock`, a catch clause an
  `exception`, perhaps a `guard`, and a `block`;
* a list of declarations has declarations, each with its name as payload or a pattern as
  `names`, and perhaps an `initializer`;
* a function has `params`, which is a list, and a `body`, which is a script;
* member access has the object and an identifier, a call the callee and a list;
* a comprehension has an `expression` and a `tail`.
-/

namespace ScriptMin

/-- Role of a node for its parent. -/
inductive Role where
  | condition
  | thenPart
  | elsePart
  | body
  | setup
  | update
  | iterator
  | object
  | initializer
  | params
  | expression
  | discriminant
  | label
  | statements
  | tryBlock
  | finallyBlock
  | exception
  | guard
  | block
  | tail
  | names
  | value
  | statement
  | bindings
  deriving DecidableEq, Repr

/-- What a node carries besides its children. -/
inductive Payload where
  | none
  /-- A name, the text of a string, the source of a regular expression, or a label. -/
  | text (text : String)
  | number (value : Number)
  deriving DecidableEq, Repr

/-- How a function was introduced. -/
inductive FunctionForm where
  /-- By a declaration in the statement list of a body. -/
  | declared
  /-- As part of an expression. -/
  | expressed
  /-- By a declaration below the statement list of a body. -/
  | nested
  deriving DecidableEq, Repr

/-- Attributes that a node has or lacks. -/
structure Flags where
  /-- Written in parentheses. -/
  parenthesized : Bool := false
  /-- An increment or decrement behind its operand. -/
  trailing : Bool := false
  /-- A function whose body is a bare expression. -/
  bareBody : Bool := false
  /-- A loop over values instead of keys. -/
  each : Bool := false
  getter : Bool := false
  setter : Bool := false
  deriving DecidableEq, Repr, Inhabited

/-- What a node is, apart from its children. -/
structure Head where
  kind : Kind
  span : Span
  role : Option Role := none
  payload : Payload := .none
  /-- Operator of a compound assignment. -/
  assignOp : Option Kind := none
  form : Option FunctionForm := none
  flags : Flags := {}
  /-- Comments in front of the node. -/
  comments : List Comment := []
  deriving DecidableEq, Repr

namespace Head

instance : Inhabited Head := ⟨{ kind := .script, span := ⟨0, 0, 0⟩ }⟩

def text? (h : Head) : Option String :=
  match h.payload with
  | .text text => some text
  | _ => none

/-- The text a node carries, empty if it carries none. -/
def text (h : Head) : String := h.text?.getD ""

def number? (h : Head) : Option Number :=
  match h.payload with
  | .number value => some value
  | _ => none

end Head

inductive Tree where
  | node (head : Head) (children : List Tree)
  deriving Repr

namespace Tree

def head : Tree → Head
  | node head _ => head

def children : Tree → List Tree
  | node _ children => children

instance : Inhabited Tree := ⟨node default []⟩

def kind (t : Tree) : Kind := t.head.kind

def span (t : Tree) : Span := t.head.span

def flags (t : Tree) : Flags := t.head.flags

def child? (t : Tree) (role : Role) : Option Tree :=
  t.children.find? fun c => c.head.role == some role

def nth? (t : Tree) (i : Nat) : Option Tree := t.children[i]?

mutual
def size : Tree → Nat
  | node _ children => sizeList children + 1

def sizeList : List Tree → Nat
  | [] => 0
  | t :: rest => size t + sizeList rest
end

mutual
def depth : Tree → Nat
  | node _ children => depthList children + 1

def depthList : List Tree → Nat
  | [] => 0
  | t :: rest => max (depth t) (depthList rest)
end

theorem depth_pos (t : Tree) : 0 < t.depth := by
  cases t with
  | node head children => simp [depth]

theorem depth_le_depthList {t : Tree} {ts : List Tree} (h : t ∈ ts) : t.depth ≤ depthList ts := by
  induction ts with
  | nil => cases h
  | cons s ts ih =>
      rw [depthList]
      rcases List.mem_cons.mp h with rfl | h
      · exact Nat.le_max_left _ _
      · exact Nat.le_trans (ih h) (Nat.le_max_right _ _)

theorem depth_le_of_mem {head : Head} {t : Tree} {ts : List Tree} (h : t ∈ ts) :
    t.depth ≤ (node head ts).depth := by
  rw [depth]
  exact Nat.le_succ_of_le (depth_le_depthList h)

mutual
/-- A way down has no more nodes than the tree. -/
theorem depth_le_size : ∀ t : Tree, t.depth ≤ t.size
  | node _ children => by
      rw [depth, size]
      exact Nat.succ_le_succ (depthList_le_sizeList children)

theorem depthList_le_sizeList : ∀ ts : List Tree, depthList ts ≤ sizeList ts
  | [] => Nat.le_refl _
  | t :: rest => by
      rw [depthList, sizeList]
      have hfirst := depth_le_size t
      have hrest := depthList_le_sizeList rest
      omega
end

def mapHead (f : Head → Head) : Tree → Tree
  | node head children => node (f head) children

def withRole (role : Role) (t : Tree) : Tree := t.mapHead fun h => { h with role := some role }

/-! ### Building -/

def leaf (kind : Kind) (span : Span) : Tree := node { kind, span } []

def textLeaf (kind : Kind) (text : String) (span : Span) : Tree :=
  node { kind, span, payload := .text text } []

def identifier (name : String) (span : Span) : Tree := textLeaf .identifier name span

def number (value : Number) (span : Span) : Tree :=
  node { kind := .number, span, payload := .number value } []

def ofList (kind : Kind) (span : Span) (children : List Tree) : Tree :=
  node { kind, span } children

def part (role : Role) (t : Option Tree) : List Tree := (t.map (withRole role)).toList

/-- An array literal; what is left out becomes a hole. -/
def arrayInit (elements : List (Option Tree)) (span : Span) : Tree :=
  ofList .arrayInit span (elements.map fun e => e.getD (leaf .hole span))

def call (callee : Tree) (args : List Tree) (span : Span) : Tree :=
  ofList .call span [callee, ofList .list span args]

def member (object : Tree) (name : String) (span : Span) : Tree :=
  ofList .dot span [object, identifier name span]

def parenthesize (t : Tree) : Tree :=
  t.mapHead fun h => { h with flags := { h.flags with parenthesized := true } }

/-- Puts comments in front of a node, behind those already there. -/
def attach (comments : List Comment) (t : Tree) : Tree :=
  t.mapHead fun h => { h with comments := h.comments ++ comments }

end Tree

end ScriptMin
