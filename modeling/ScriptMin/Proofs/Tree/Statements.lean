import ScriptMin.Printer.Site
import ScriptMin.Proofs.Tree.Ordinary

/-!
Structured statements: blocks, branches, loops and labels around expressions. As with
expressions, the trees are those the grammar builds, but with any spans and nested at will; in
particular an `else` may follow a statement that ends with an `if` of its own. The printer puts
such a statement in braces, so it comes back fenced by a block.
-/

namespace ScriptMin.Tree

open ScriptMin.Printer Text

/-! ### Roles -/

section withRole

variable (t : Tree) (role : Role)

@[simp] theorem kind_withRole : (t.withRole role).kind = t.kind := by
  cases t
  rfl

@[simp] theorem role_withRole : (t.withRole role).head.role = some role := by
  cases t
  rfl

@[simp] theorem depth_withRole : (t.withRole role).depth = t.depth := by
  cases t
  rfl

@[simp] theorem endsWithOpenIf_withRole : endsWithOpenIf (t.withRole role) = endsWithOpenIf t := by
  cases t
  rfl

end withRole

/-! ### The class of statements -/

/-- A statement inside the given labels. Labels that are nested differ. -/
inductive IsStatement (options : PrintOptions) : List String → Tree → Prop where
  | block {labels : List String} {span : Span} {statements : List Tree} :
      (∀ t ∈ statements, IsStatement options labels t) →
      IsStatement options labels (ofList .block span statements)
  | expression {labels : List String} {span : Span} {value : Tree} :
      value.IsExpression options →
      IsStatement options labels (ofList .semicolon span [value.withRole .expression])
  | empty {labels : List String} {span : Span} :
      IsStatement options labels (leaf .semicolon span)
  | ifThen {labels : List String} {span : Span} {condition thenPart : Tree} :
      condition.IsExpression options → IsStatement options labels thenPart →
      IsStatement options labels
        (ofList .ifElse span [condition.withRole .condition, thenPart.withRole .thenPart])
  | ifElse {labels : List String} {span : Span} {condition thenPart elsePart : Tree} :
      condition.IsExpression options → IsStatement options labels thenPart →
      IsStatement options labels elsePart →
      IsStatement options labels
        (ofList .ifElse span [condition.withRole .condition, thenPart.withRole .thenPart,
          elsePart.withRole .elsePart])
  | whileLoop {labels : List String} {span : Span} {condition body : Tree} :
      condition.IsExpression options → IsStatement options labels body →
      IsStatement options labels
        (ofList .whileLoop span [condition.withRole .condition, body.withRole .body])
  | doLoop {labels : List String} {span : Span} {body condition : Tree} :
      IsStatement options labels body → condition.IsExpression options →
      IsStatement options labels
        (ofList .doLoop span [body.withRole .body, condition.withRole .condition])
  | withStmt {labels : List String} {span : Span} {object body : Tree} :
      object.IsExpression options → IsStatement options labels body →
      IsStatement options labels
        (ofList .withStmt span [object.withRole .object, body.withRole .body])
  | label {labels : List String} {span : Span} {name : String} {statement : Tree} :
      isName name → isReserved name = false → name ∉ labels →
      IsStatement options (name :: labels) statement →
      IsStatement options labels
        (node { kind := .label, span, payload := .text name } [statement.withRole .statement])
  | throwStmt {labels : List String} {span : Span} {exception : Tree} :
      exception.IsExpression options →
      IsStatement options labels (ofList .throwStmt span [exception.withRole .exception])
  | debuggerStmt {labels : List String} {span : Span} :
      IsStatement options labels (leaf .debuggerStmt span)
  | forLoop {labels : List String} {span : Span} {setup condition update : Option Tree}
      {body : Tree} :
      (∀ t ∈ setup, t.IsExpression options) → (∀ t ∈ condition, t.IsExpression options) →
      (∀ t ∈ update, t.IsExpression options) → IsStatement options labels body →
      IsStatement options labels
        (ofList .forLoop span (part .setup setup ++ part .condition condition ++
          part .update update ++ [body.withRole .body]))

theorem IsStatement.role_eq_none {options : PrintOptions} {labels : List String} {t : Tree}
    (h : t.IsStatement options labels) : t.head.role = none := by
  cases h <;> rfl

/-! ### Fences -/

/-- A statement in a block of its own, as the first part of an `if`. -/
def fence (t : Tree) : Tree :=
  (ofList .block t.span [t.mapHead fun h => { h with role := none }]).withRole .thenPart

/-- Whether a tree is the first part of an `if` that an `else` behind it would be read as a part
of. -/
def isOpenThen (t : Tree) : Bool :=
  t.head.role == some .thenPart && t.kind != .block && endsWithOpenIf t

mutual
/-- A statement with a block around the first part of every `if` with an `else`, wherever the
`else` would otherwise join an inner `if`. Expressions stay as they are. -/
def fenced : Tree → Tree
  | node head children =>
    if head.kind.isStatement then
      node head (fencedParts
        (head.kind == .ifElse && children.any (·.head.role == some .elsePart)) children)
    else node head children

def fencedParts (hasElse : Bool) : List Tree → List Tree
  | [] => []
  | t :: rest =>
    (if hasElse && t.isOpenThen then fence (fenced t) else fenced t) :: fencedParts hasElse rest
end

theorem fencedParts_false (ts : List Tree) : fencedParts false ts = ts.map fenced := by
  induction ts with
  | nil => rfl
  | cons t ts ih => rw [fencedParts, ih, List.map_cons, Bool.false_and, if_neg nofun]

theorem fenced_of_not_isStatement {t : Tree} (h : t.kind.isStatement = false) : t.fenced = t := by
  cases t with
  | node head children =>
      rw [fenced, if_neg]
      simpa [kind, Tree.head] using h

@[simp] theorem fenced_withRole (t : Tree) (role : Role) :
    (t.withRole role).fenced = t.fenced.withRole role := by
  cases t with
  | node head children =>
      simp only [withRole, mapHead, fenced]
      split <;> rfl

/-- A statement other than an `if` has its parts fenced one by one. -/
theorem fenced_node {head : Head} (h : head.kind.isStatement) (hkind : head.kind ≠ .ifElse)
    (children : List Tree) : (node head children).fenced = node head (children.map fenced) := by
  rw [fenced, if_pos h, beq_false_of_ne hkind, Bool.false_and, fencedParts_false]

theorem fenced_ofList (kind : Kind) (h : kind.isStatement) (hkind : kind ≠ .ifElse) (span : Span)
    (children : List Tree) :
    (ofList kind span children).fenced = ofList kind span (children.map fenced) :=
  fenced_node h hkind children

theorem fenced_ifElse (span : Span) (children : List Tree) :
    (ofList .ifElse span children).fenced =
      ofList .ifElse span
        (fencedParts (children.any (·.head.role == some .elsePart)) children) := by
  rw [ofList, fenced]
  rfl

@[simp] theorem head_fenced (t : Tree) : t.fenced.head = t.head := by
  cases t with
  | node head children =>
      rw [fenced]
      split <;> rfl

/-- Inside its fence a statement has no role of its own. -/
theorem fence_withRole {t : Tree} (h : t.head.role = none) :
    fence (t.withRole .thenPart) = (ofList .block t.span [t]).withRole .thenPart := by
  obtain ⟨⟨kind, span, role, flags, payload, assignOp, comments⟩, children⟩ := t
  cases h
  rfl

section Branches

variable {span : Span} {condition thenPart elsePart : Tree}

theorem fenced_ifThen (hcondition : condition.fenced = condition) :
    (ofList .ifElse span [condition.withRole .condition, thenPart.withRole .thenPart]).fenced =
      ofList .ifElse span
        [condition.withRole .condition, thenPart.fenced.withRole .thenPart] := by
  have hany : [condition.withRole .condition, thenPart.withRole .thenPart].any
      (·.head.role == some .elsePart) = false := by
    simp only [List.any_cons, List.any_nil, role_withRole]
    rfl
  rw [fenced_ifElse, hany, fencedParts_false]
  simp [hcondition]

theorem fenced_branches (hcondition : condition.fenced = condition) :
    (ofList .ifElse span [condition.withRole .condition, thenPart.withRole .thenPart,
        elsePart.withRole .elsePart]).fenced =
      ofList .ifElse span [condition.withRole .condition,
        if thenPart.kind ≠ .block ∧ endsWithOpenIf thenPart then
          fence (thenPart.fenced.withRole .thenPart)
        else thenPart.fenced.withRole .thenPart,
        elsePart.fenced.withRole .elsePart] := by
  have hany : [condition.withRole .condition, thenPart.withRole .thenPart,
      elsePart.withRole .elsePart].any (·.head.role == some .elsePart) = true := by
    simp only [List.any_cons, List.any_nil, role_withRole]
    rfl
  have hopen : (thenPart.withRole .thenPart).isOpenThen =
      decide (thenPart.kind ≠ .block ∧ endsWithOpenIf thenPart) := by
    rw [Bool.eq_iff_iff, decide_eq_true_iff]
    simp [isOpenThen]
  have hclosed : ∀ (t : Tree) (role : Role), role ≠ .thenPart →
    (t.withRole role).isOpenThen = false := by
    intro t role hrole
    simp [isOpenThen, hrole]
  rw [fenced_ifElse, hany]
  simp [fencedParts, hcondition, hopen, hclosed]

end Branches

end ScriptMin.Tree
