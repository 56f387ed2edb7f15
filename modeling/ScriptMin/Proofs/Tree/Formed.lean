import ScriptMin.Scope

/-!
Formed trees. Every node has children of the kinds and in the roles that its own kind allows.
Only what the names of a script depend on is asked for: where names are properties, keys,
patterns or parameters. Apart from that, nodes are seated where the parts that decide what is run
have places of their own: operands, conditions, branches and clauses.
-/

namespace ScriptMin

namespace Kind

def isKey : Kind → Bool
  | .identifier | .string | .number => true
  | _ => false

def inPattern : Kind → Bool
  | .hole | .arrayInit | .objectInit | .propertyInit => true
  | kind => kind.isKey

/-- Whether the kind of a node says something about its children. -/
def isRigid : Kind → Bool
  | .dot | .declaration | .catchClause | .forIn | .function | .ifElse | .list => true
  | .regExp | .trueLit | .falseLit | .nullLit | .thisRef => true
  | kind => kind.inPattern

/-- Whether nodes of the kind stand in places that ask for it. -/
def isPlaced : Kind → Bool
  | .list | .script => true
  | kind => kind.inPattern

/-- Whether the children of a node are told apart by their roles. -/
def hasRoles : Kind → Bool
  | .declaration | .catchClause | .forIn | .function | .ifElse => true
  | _ => false

/-- Whether a node of the kind has a place for each of the parts that decide what is run. -/
def isSeated : Kind → Bool
  | .not | .and | .or | .eq | .strictEq | .ne | .strictNe | .conditional => true
  | .ifElse | .switchCase | .caseClause | .defaultClause => true
  | _ => false

/-- Whether all children of a node of the kind have something to satisfy. -/
def isListing : Kind → Bool
  | .varList => true
  | kind => kind.isStatementList

def readsRoles : Kind → Bool
  | .propertyInit => true
  | kind => kind.hasRoles

theorem inPattern_of_isKey {kind : Kind} (h : kind.isKey) : kind.inPattern := by
  cases kind <;> first | rfl | cases h

theorem isRigid_of_inPattern {kind : Kind} (h : kind.inPattern) : kind.isRigid := by
  cases kind <;> first | rfl | cases h

theorem isRigid_of_hasRoles {kind : Kind} (h : kind.hasRoles) : kind.isRigid := by
  cases kind <;> first | rfl | cases h

theorem isListing_eq_false {kind : Kind} (h : kind.isListing = false) :
    kind.isStatementList = false ∧ kind ≠ .varList := by
  refine ⟨?_, fun hlist => ?_⟩
  · cases kind <;> first | rfl | cases h
  · rw [hlist] at h
    cases h

theorem not_readsRoles_of_not_isRigid {kind : Kind} (h : kind.isRigid = false) :
    kind.readsRoles = false := by
  cases kind <;> first | rfl | cases h

theorem readsRoles_of_hasRoles {kind : Kind} (h : kind.hasRoles) : kind.readsRoles := by
  cases kind <;> first | rfl | cases h

theorem isPlaced_of_inPattern {kind : Kind} (h : kind.inPattern) : kind.isPlaced := by
  cases kind <;> first | rfl | cases h

end Kind

namespace Head

/-- A head is complete: a name has a text, a function a form, only lists are parameters, and only
blocks are the statements of a clause. An accessor is part of an expression. -/
structure Complete (h : Head) : Prop where
  text : h.kind = .identifier → h.text?.isSome
  form : h.kind = .function → h.form.isSome
  accessor : Tree.isAccessor h → h.form = some .expressed
  params : h.role = some .params → h.kind = .list
  statements : h.role = some .statements → h.kind = .block

theorem complete_of_kind {head : Head} (hname : head.kind ≠ .identifier)
    (hfunction : head.kind ≠ .function) (haccessor : Tree.isAccessor head = false)
    (hrole : head.role = none) : head.Complete where
  text h := absurd h hname
  form h := absurd h hfunction
  accessor h := by rw [haccessor] at h; cases h
  params h := by rw [hrole] at h; cases h
  statements h := by rw [hrole] at h; cases h

/-- A node can be the child of another one in a place. -/
def Hosts (p : Head) (i : Nat) (c : Head) : Prop :=
  match p.kind with
  | .identifier | .string | .number | .hole => False
  | .regExp | .trueLit | .falseLit | .nullLit | .thisRef => False
  | .dot => i = 0 ∨ i = 1 ∧ c.kind = .identifier
  | .propertyInit => i = 0 ∧ c.kind.isKey ∧ c.role = none ∨ i = 1
  | .declaration => c.role = some .names ∧ p.text? = none ∨ c.role = some .initializer
  | .catchClause => c.role = some .exception ∨ c.role = some .guard ∨ c.role = some .block
  | .function =>
    c.role = some .params ∧ c.kind = .list ∨ c.role = some .body ∧ c.kind = .script
  | .objectInit => c.kind = .propertyInit ∨ c.kind = .function ∧ c.form = some .expressed
  | _ => True

/-- A node can be the child of another one in a place, where it takes part in deciding what is
run. -/
def Seats (p : Head) (i : Nat) (c : Head) : Prop :=
  match p.kind with
  | .not => i = 0
  | .and | .or | .eq | .strictEq | .ne | .strictNe => i ≤ 1
  | .conditional => i ≤ 2
  | .ifElse => c.role = some .condition ∨ c.role = some .thenPart ∨ c.role = some .elsePart
  | .switchCase =>
    i = 0 ∧ c.role = some .discriminant ∨ 0 < i ∧ (c.kind = .caseClause ∨ c.kind = .defaultClause)
  | .caseClause => i = 0 ∧ c.role = some .label ∨ i = 1 ∧ c.role = some .statements
  | .defaultClause => i = 0 ∧ c.role = some .statements
  | _ => True

/-- Whether a child of a node is a pattern that binds names. -/
def binds (p c : Head) : Bool :=
  match p.kind with
  | .declaration => c.role == some .names
  | .catchClause => c.role == some .exception
  | .list => p.role == some .params
  | _ => false

variable {p p' c c' : Head} {i j : Nat}

theorem Hosts.congr (h : p.Hosts i c) (hp : p'.kind = p.kind)
    (htext : p.kind = .declaration → p.text? = none → p'.text? = none) (hkind : c'.kind = c.kind)
    (hrole : c'.role = c.role) (hform : c'.form = c.form) : p'.Hosts i c' := by
  unfold Hosts at h ⊢
  rw [hp, hkind, hrole, hform]
  cases hcase : p.kind <;> rw [hcase] at h <;> first | exact h | skip
  exact h.imp_left fun ⟨hnames, hbare⟩ => ⟨hnames, htext hcase hbare⟩

/-- Roles matter below a few kinds of nodes only. -/
theorem Hosts.of_role (h : p.Hosts i c) (hp : p.kind.readsRoles = false) (hkind : c'.kind = c.kind)
    (hform : c'.form = c.form) : p.Hosts i c' := by
  revert h hp
  unfold Hosts
  cases p.kind <;> intro h hp <;>
    first | exact h | exact Bool.noConfusion hp | simpa only [hkind, hform] using h

theorem Hosts.of_not_isRigid (h : p.kind.isRigid = false) : p.Hosts i c := by
  revert h
  unfold Hosts
  cases p.kind <;> intro h <;> trivial

/-- Places further to the front ask for less, other than in a property. -/
theorem Hosts.of_le (h : p.Hosts i c) (hp : p.kind ≠ .propertyInit) (hle : j ≤ i) :
    p.Hosts j c := by
  revert h hp
  unfold Hosts
  cases p.kind <;> intro h hp <;> first | exact h | exact absurd rfl hp | skip
  rcases h with rfl | ⟨rfl, hname⟩
  · exact .inl (Nat.le_zero.mp hle)
  · rcases Nat.le_one_iff_eq_zero_or_eq_one.mp hle with rfl | rfl
    · exact .inl rfl
    · exact .inr ⟨rfl, hname⟩

/-- A node that is in no place of its own can be replaced by any other one in its role. -/
theorem Hosts.replaced (h : p.Hosts i c) (hplaced : c.kind.isPlaced = false)
    (hform : c.kind = .function → c.form ≠ some .expressed) (hrole : c'.role = c.role) :
    p.Hosts i c' := by
  revert h
  unfold Hosts
  cases hkind : p.kind <;> intro h <;> first | exact h | skip
  case dot =>
      rcases h with hfirst | ⟨-, hname⟩
      · exact .inl hfirst
      · rw [hname] at hplaced
        cases hplaced
  case propertyInit =>
      rcases h with ⟨-, hkey, -⟩ | hsecond
      · have := Kind.isPlaced_of_inPattern (Kind.inPattern_of_isKey hkey)
        rw [hplaced] at this
        cases this
      · exact .inr hsecond
  case declaration => simpa only [hrole] using h
  case catchClause => simpa only [hrole] using h
  case function => rcases h with ⟨-, h⟩ | ⟨-, h⟩ <;> rw [h] at hplaced <;> cases hplaced
  case objectInit =>
      rcases h with h | ⟨h, hexpressed⟩
      · rw [h] at hplaced
        cases hplaced
      · exact absurd hexpressed (hform h)

theorem seats_of_not_isSeated (h : p.kind.isSeated = false) : p.Seats i c := by
  revert h
  unfold Seats
  cases p.kind <;> intro h <;> trivial

/-- A node that is no clause can be replaced by any other one in its role. -/
theorem Seats.replaced (h : p.Seats i c) (hp : p'.kind = p.kind) (hrole : c'.role = c.role)
    (hkind : c'.kind = c.kind ∨ ¬ (c.kind = .caseClause ∨ c.kind = .defaultClause)) :
    p'.Seats i c' := by
  revert h
  unfold Seats
  rw [hp, hrole]
  cases p.kind <;> intro h <;> first | exact h | skip
  exact h.imp_right fun ⟨hi, hclause⟩ =>
    ⟨hi, (hkind.resolve_right (not_not_intro hclause)).symm ▸ hclause⟩

theorem binds_congr (hp : p'.kind = p.kind) (hprole : p'.role = p.role) (hrole : c'.role = c.role) :
    p'.binds c' = p.binds c := by
  simp only [binds, hp, hprole, hrole]

theorem binds_of_not_isRigid (h : p.kind.isRigid = false) : p.binds c = false := by
  revert h
  unfold binds
  cases p.kind <;> intro h <;> first | rfl | cases h

end Head

namespace Tree

inductive IsPattern : Tree → Prop where
  | leaf {head : Head} {children : List Tree} :
      head.kind = .identifier ∨ head.kind = .hole → IsPattern (.node head children)
  | array {head : Head} {children : List Tree} :
      head.kind = .arrayInit → (∀ c ∈ children, IsPattern c) → IsPattern (.node head children)
  | object {head : Head} {children : List Tree} :
      head.kind = .objectInit → (∀ c ∈ children, c.kind = .propertyInit) →
      (∀ c ∈ children, ∀ value, c.children[1]? = some value → IsPattern value) →
      IsPattern (.node head children)

/-- All nodes of a tree are formed as their kinds ask for. -/
inductive Formed : Tree → Prop where
  | node {head : Head} {children : List Tree} :
      head.Complete → (∀ i c, children[i]? = some c → head.Hosts i c.head) →
      (head.kind.hasRoles → children.Pairwise fun a b => a.head.role ≠ b.head.role) →
      (∀ c ∈ children, head.binds c.head → c.IsPattern) → (∀ c ∈ children, c.Formed) →
      Formed (.node head children)

/-- All nodes of a tree that take part in deciding what is run have their places. -/
inductive Seated : Tree → Prop where
  | node {head : Head} {children : List Tree} :
      (∀ i c, children[i]? = some c → head.Seats i c.head) → (∀ c ∈ children, c.Seated) →
      Seated (.node head children)

/-- A declaration has a text for its name, or a pattern of names. -/
structure Named (t : Tree) : Prop where
  kind_eq : t.head.kind = .declaration
  title : t.head.text?.isSome ∨ ∃ c ∈ t.children, c.head.role ≠ some .initializer

/-- All conditional expressions of a tree have a condition and two values, nothing in a list of
statements but expression statements is the iterator of a loop, and the declarations of a list have
names. -/
inductive Full : Tree → Prop where
  | node {head : Head} {children : List Tree} :
      (head.kind = .conditional → 3 ≤ children.length) →
      (head.kind.isStatementList → ∀ c ∈ children, c.head.kind ≠ .semicolon →
        c.head.role ≠ some .iterator) →
      (head.kind = .varList → ∀ c ∈ children, c.Named) →
      (∀ c ∈ children, c.Full) → Full (.node head children)

theorem Full.of_mem {head : Head} {children : List Tree} (h : (Tree.node head children).Full) :
    ∀ c ∈ children, c.Full := by
  cases h with
  | node _ _ _ hchildren => exact hchildren

end Tree

end ScriptMin
