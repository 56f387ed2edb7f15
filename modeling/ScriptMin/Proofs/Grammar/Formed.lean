import ScriptMin.Proofs.Grammar.Ensuring
import ScriptMin.Proofs.Tree.Formed

/-!
The grammar gives formed trees. Main statement: every node of a script that is accepted has children
of the kinds and in the roles that its own kind allows.
-/

namespace ScriptMin

def Role.asksNothing : Role → Bool
  | .params | .statements => false
  | _ => true

/-- Whether nodes of the kind, if they have no role, ask nothing of their children. -/
def Kind.asksNothing : Kind → Bool
  | .arrayInit | .list => true
  | kind => !kind.isRigid && !kind.isSeated && !kind.isListing

namespace Tree

variable {head head' : Head} {children : List Tree} {t : Tree} {role : Role}

/-! ### Heads -/

/-- Spans, comments and marks do not matter for what is formed. -/
theorem Formed.of_head (h : (Tree.node head children).Formed) (hkind : head'.kind = head.kind)
    (hpayload : head'.payload = head.payload) (hform : head'.form = head.form)
    (haccessor : isAccessor head' = isAccessor head)
    (hrole : head'.role = some .params → head.role = some .params)
    (hblock : head'.role = some .statements → head.role = some .statements ∨ head.kind = .block) :
    (Tree.node head' children).Formed := by
  cases h with
  | node hcomplete hhosts hroles hpatterns hchildren =>
      refine .node ⟨?_, ?_, ?_, ?_, ?_⟩ ?_ (hkind ▸ hroles) (fun c hc hbinds => ?_) hchildren
      · rw [hkind, Head.text?, hpayload]
        exact hcomplete.text
      · rw [hkind, hform]
        exact hcomplete.form
      · rw [haccessor, hform]
        exact hcomplete.accessor
      · rw [hkind]
        exact fun h => hcomplete.params (hrole h)
      · rw [hkind]
        exact fun h => (hblock h).elim hcomplete.statements id
      · exact fun i c hc => (hhosts i c hc).congr hkind
          (fun _ hbare => by rwa [Head.text?, hpayload]) rfl rfl rfl
      · refine hpatterns c hc ?_
        rw [Head.binds, hkind] at hbinds
        rw [Head.binds]
        revert hbinds
        cases head.kind <;> intro hbinds <;> first | exact hbinds | skip
        exact beq_iff_eq.mpr (hrole (eq_of_beq hbinds))

theorem Seated.of_head (h : (Tree.node head children).Seated) (hkind : head'.kind = head.kind) :
    (Tree.node head' children).Seated := by
  cases h with
  | node hseats hchildren =>
      refine .node (fun i c hc => ?_) hchildren
      rw [Head.Seats, hkind]
      exact hseats i c hc

theorem Full.of_head (h : (Tree.node head children).Full) (hkind : head'.kind = head.kind) :
    (Tree.node head' children).Full := by
  cases h with
  | node hparts hlisted hnamed hchildren =>
      exact .node (fun h => hparts (hkind ▸ h)) (fun h => hlisted (hkind ▸ h))
        (fun h => hnamed (hkind ▸ h)) hchildren

/-- A tree is formed, and its parts are there and have their places. -/
structure Built (t : Tree) : Prop where
  formed : t.Formed
  seated : t.Seated
  full : t.Full

theorem Built.mapHead {f : Head → Head} (h : t.Built) (hformed : (t.mapHead f).Formed)
    (hkind : ∀ head, (f head).kind = head.kind) : (t.mapHead f).Built := by
  cases t with
  | node head children =>
      exact ⟨hformed, h.seated.of_head (hkind head), h.full.of_head (hkind head)⟩

theorem Formed.withRole (h : t.Formed) (hrole : role.asksNothing) : (t.withRole role).Formed := by
  have hfree : ∀ other : Role, other.asksNothing = false → some role ≠ some other := by
    rintro other hother ⟨⟩
    rw [hother] at hrole
    cases hrole
  cases t with
  | node head children =>
      exact h.of_head rfl rfl rfl rfl (fun heq => absurd heq (hfree .params rfl))
        fun heq => absurd heq (hfree .statements rfl)

theorem Formed.asStatements (h : t.Formed) (hblock : t.kind = .block) :
    (t.withRole .statements).Formed := by
  cases t with
  | node head children => exact h.of_head rfl rfl rfl rfl nofun fun _ => .inr hblock

theorem Built.withRole (h : t.Built) (hrole : role.asksNothing) : (t.withRole role).Built :=
  h.mapHead (h.formed.withRole hrole) fun _ => rfl

theorem IsPattern.withRole (h : t.IsPattern) : (t.withRole role).IsPattern := by
  cases h with
  | leaf hkind => exact .leaf hkind
  | array hkind hchildren => exact .array hkind hchildren
  | object hkind hfields hvalues => exact .object hkind hfields hvalues

/-! ### Nodes -/

theorem built_leaf (hcomplete : head.Complete) (hkind : head.kind ≠ .conditional) :
    (node head []).Built :=
  ⟨.node hcomplete nofun (fun _ => .nil) nofun nofun, .node nofun nofun,
    .node (fun h => absurd h hkind) (fun _ => nofun) (fun _ => nofun) nofun⟩

theorem built_node (hformed : (∀ c ∈ children, c.Formed) → (node head children).Formed)
    (hseats : ∀ i c, children[i]? = some c → head.Seats i c.head)
    (hfull : head.kind = .conditional → 3 ≤ children.length)
    (hkind : head.kind.isListing = false) (hchildren : ∀ c ∈ children, c.Built) :
    (node head children).Built :=
  have hplain := Kind.isListing_eq_false hkind
  ⟨hformed fun c hc => (hchildren c hc).formed, .node hseats fun c hc => (hchildren c hc).seated,
    .node hfull (by simp [hplain.1]) (fun h => absurd h hplain.2) fun c hc => (hchildren c hc).full⟩

theorem not_isSeated_of_asksNothing {kind : Kind} (h : kind.asksNothing) :
    kind.isSeated = false := by
  cases kind <;> first | rfl | cases h

theorem not_isListing_of_asksNothing {kind : Kind} (h : kind.asksNothing) :
    kind.isListing = false := by
  cases kind <;> first | rfl | cases h

theorem formed_plain (hkind : head.kind.isRigid = false ∨ head.kind = .arrayInit ∨ head.kind = .list)
    (hrole : head.role = none) (haccessor : isAccessor head = false)
    (hchildren : ∀ c ∈ children, c.Formed) : (node head children).Formed := by
  refine .node ?_ (fun i c _ => ?_) ?_ (fun c _ => ?_) hchildren
  · refine Head.complete_of_kind ?_ ?_ haccessor hrole <;> intro heq <;> rw [heq] at hkind <;>
      rcases hkind with hkind | hkind | hkind <;> cases hkind
  · rcases hkind with hkind | hkind | hkind
    · exact Head.Hosts.of_not_isRigid hkind
    all_goals
      rw [Head.Hosts, hkind]
      trivial
  · intro hroles
    rcases hkind with hkind | hkind | hkind
    · rw [Kind.isRigid_of_hasRoles hroles] at hkind
      cases hkind
    all_goals
      rw [hkind] at hroles
      cases hroles
  · intro hbinds
    rcases hkind with hkind | hkind | hkind
    · rw [Head.binds_of_not_isRigid hkind] at hbinds
      cases hbinds
    all_goals
      rw [Head.binds, hkind] at hbinds
      first | cases hbinds | (rw [hrole] at hbinds; cases hbinds)

theorem built_plain (hkind : head.kind.asksNothing) (hrole : head.role = none)
    (haccessor : isAccessor head = false) (hchildren : ∀ c ∈ children, c.Built) :
    (node head children).Built := by
  refine built_node (formed_plain ?_ hrole haccessor)
    (fun _ _ _ => Head.seats_of_not_isSeated (not_isSeated_of_asksNothing hkind))
    (fun h => by rw [h] at hkind; cases hkind) (not_isListing_of_asksNothing hkind) hchildren
  cases hcase : head.kind <;> rw [hcase] at hkind <;>
    first | exact .inl rfl | exact .inr (.inl rfl) | exact .inr (.inr rfl) | cases hkind

/-- Below nodes that tell their children apart by their roles, the places of these do not matter. -/
theorem formed_of_roles (hcomplete : head.Complete)
    (hhosts : ∀ c ∈ children, ∀ i, head.Hosts i c.head)
    (hroles : children.Pairwise fun a b => a.head.role ≠ b.head.role)
    (hpatterns : ∀ c ∈ children, head.binds c.head → c.IsPattern)
    (hchildren : ∀ c ∈ children, c.Formed) : (node head children).Formed :=
  .node hcomplete (fun i c hc => hhosts c (List.mem_of_getElem? hc) i) (fun _ => hroles) hpatterns
    hchildren

theorem built_of_roles (hcomplete : head.Complete)
    (hhosts : ∀ c ∈ children, ∀ i, head.Hosts i c.head)
    (hroles : children.Pairwise fun a b => a.head.role ≠ b.head.role)
    (hpatterns : ∀ c ∈ children, head.binds c.head → c.IsPattern)
    (hseats : ∀ c ∈ children, ∀ i, head.Seats i c.head) (hkind : head.kind ≠ .conditional)
    (hlist : head.kind.isListing = false) (hchildren : ∀ c ∈ children, c.Built) :
    (node head children).Built :=
  built_node (formed_of_roles hcomplete hhosts hroles hpatterns)
    (fun i c hc => hseats c (List.mem_of_getElem? hc) i) (fun h => absurd h hkind) hlist hchildren

end Tree

namespace Grammar

variable {t : Tree} {ts : List Tree} {span : Span} {role : Role}

/-- A tree without a role that is built as it should be. -/
structure Bare (t : Tree) : Prop where
  role : t.head.role = none
  built : t.Built

/-- Trees without a role that are built as they should be. -/
def AreBare (ts : List Tree) : Prop := ∀ t ∈ ts, Bare t

theorem areBare_nil : AreBare [] := nofun

theorem AreBare.cons (h : Bare t) (hts : AreBare ts) : AreBare (t :: ts) :=
  List.forall_mem_cons.mpr ⟨h, hts⟩

theorem AreBare.reverse (h : AreBare ts) : AreBare ts.reverse := forall_mem_reverse h

theorem AreBare.built (h : AreBare ts) : ∀ t ∈ ts, t.Built := fun t ht => (h t ht).built

theorem Bare.parenthesize (h : Bare t) : Bare t.parenthesize := by
  cases t with
  | node head children =>
      exact ⟨h.role, h.built.mapHead (h.built.formed.of_head rfl rfl rfl rfl id .inl) fun _ => rfl⟩

theorem Bare.attach (h : Bare t) (comments : List Comment) : Bare (t.attach comments) := by
  cases t with
  | node head children =>
      exact ⟨h.role, h.built.mapHead (h.built.formed.of_head rfl rfl rfl rfl id .inl) fun _ => rfl⟩

theorem Bare.part (h : Bare t) (hrole : role.asksNothing) : (t.withRole role).Built :=
  h.built.withRole hrole

theorem Bare.asStatements (h : Bare t) (hblock : t.kind = .block) :
    (t.withRole .statements).Built :=
  h.built.mapHead (h.built.formed.asStatements hblock) fun _ => rfl

theorem bare_plain {head : Head} (hkind : head.kind.asksNothing) (hrole : head.role = none)
    (haccessor : Tree.isAccessor head = false) (hchildren : ∀ c ∈ ts, c.Built) :
    Bare (.node head ts) :=
  ⟨hrole, Tree.built_plain hkind hrole haccessor hchildren⟩

theorem bare_ofList {kind : Kind} (hkind : kind.asksNothing) (hchildren : ∀ c ∈ ts, c.Built) :
    Bare (.ofList kind span ts) :=
  bare_plain hkind rfl rfl hchildren

/-- A node whose parts have places of their own. -/
theorem bare_seated {kind : Kind} (hkind : kind.isRigid = false)
    (hseats : ∀ i c, ts[i]? = some c → Head.Seats { kind, span } i c.head)
    (hfull : kind = .conditional → 3 ≤ ts.length) (hlist : kind.isListing = false)
    (hchildren : ∀ c ∈ ts, c.Built) : Bare (.ofList kind span ts) :=
  ⟨rfl, Tree.built_node (Tree.formed_plain (.inl hkind) rfl (by cases kind <;> rfl)) hseats hfull
    hlist hchildren⟩

/-- Statements have no role in the list that they are in. -/
theorem bare_statements {kind : Kind} (hkind : kind.isStatementList) (hts : AreBare ts) :
    Bare (.ofList kind span ts) := by
  have hplain : kind.isRigid = false ∧ kind.isSeated = false := by
    cases kind <;> first | exact ⟨rfl, rfl⟩ | cases hkind
  have hne : kind ≠ .conditional ∧ kind ≠ .varList := by
    constructor <;> rintro rfl <;> cases hkind
  have hformed : (Tree.ofList kind span ts).Formed :=
    Tree.formed_plain (.inl hplain.1) rfl (by cases kind <;> rfl) fun t ht => (hts.built t ht).formed
  refine ⟨rfl, hformed, .node (fun _ _ _ => Head.seats_of_not_isSeated hplain.2) fun t ht => ?_,
    .node (fun h => absurd h hne.1) (fun _ t ht _ => ?_) (fun h => absurd h hne.2)
      fun t ht => ?_⟩
  · exact (hts.built t ht).seated
  · rw [(hts t ht).role]
    simp
  · exact (hts.built t ht).full

theorem bare_identifier (name : String) (span : Span) : Bare (.identifier name span) :=
  ⟨rfl, Tree.built_leaf ⟨fun _ => rfl, nofun, nofun, nofun, nofun⟩ nofun⟩

theorem bare_literal {head : Head}
    (hkind : head.kind ≠ .identifier ∧ head.kind ≠ .function ∧ head.kind ≠ .conditional)
    (hrole : head.role = none) (haccessor : Tree.isAccessor head = false) :
    Bare (.node head []) :=
  ⟨hrole, Tree.built_leaf (Head.complete_of_kind hkind.1 hkind.2.1 haccessor hrole) hkind.2.2⟩

/-- A member access or a property has a place for a name. -/
theorem bare_access {object : Tree} (hobject : Bare object) (name : String) :
    Bare (.member object name span) := by
  refine ⟨rfl, Tree.built_node (.node (Head.complete_of_kind nofun nofun rfl rfl) ?_ nofun nofun)
    (fun _ _ _ => trivial) nofun rfl ?_⟩
  · intro i c hc
    match i with
    | 0 => exact .inl rfl
    | 1 =>
        obtain rfl := Option.some_inj.mp hc
        exact .inr ⟨rfl, rfl⟩
    | _ + 2 => cases hc
  · exact forall_mem_pair.mpr ⟨hobject.built, (bare_identifier name span).built⟩

theorem bare_property {key value : Tree} (hkey : Bare key) (hkind : key.kind.isKey)
    (hvalue : Bare value) : Bare (.ofList .propertyInit span [key, value]) := by
  refine ⟨rfl, Tree.built_node (.node (Head.complete_of_kind nofun nofun rfl rfl) ?_ nofun nofun)
    (fun _ _ _ => trivial) nofun rfl ?_⟩
  · intro i c hc
    match i with
    | 0 =>
        obtain rfl := Option.some_inj.mp hc
        exact .inl ⟨rfl, hkind, hkey.role⟩
    | 1 => exact .inr rfl
    | _ + 2 => cases hc
  · exact forall_mem_pair.mpr ⟨hkey.built, hvalue.built⟩

/-- A property of an object is a pair or an accessor. -/
structure IsProperty (t : Tree) : Prop extends Bare t where
  kind : t.kind = .propertyInit ∨ t.kind = .function ∧ t.head.form = some .expressed

theorem bare_object (h : ∀ t ∈ ts, IsProperty t) : Bare (.ofList .objectInit span ts) := by
  refine ⟨rfl, Tree.built_node (.node (Head.complete_of_kind nofun nofun rfl rfl) ?_ nofun nofun)
    (fun _ _ _ => trivial) nofun rfl ?_⟩
  · exact fun i c hc => (h c (List.mem_of_getElem? hc)).kind
  · exact fun t ht => (h t ht).built

/-! ### Patterns -/

/-- A formed pattern without a role. -/
structure BarePattern (t : Tree) : Prop extends Bare t where
  pattern : t.IsPattern

theorem barePattern_identifier (name : String) (span : Span) :
    BarePattern (.identifier name span) :=
  ⟨bare_identifier name span, .leaf (.inl rfl)⟩

/-- What the productions that contain each other ensure. -/
structure Forms (grammar : Self) : Prop where
  bare : ∀ e symbol, Ensures e (grammar symbol) Bare
  pattern : ∀ e, Ensures e (grammar .pattern) BarePattern

/-- A node of a binary operator with its operands. -/
theorem bare_binaryNode {kind : Kind} {left right : Tree} (hkind : kind.isBinary)
    (hleft : left.Built) (hright : right.Built) : Bare (.ofList kind span [left, right]) := by
  refine bare_seated ?_ (fun i c hc => ?_) (by rintro rfl; cases hkind) ?_
    (forall_mem_pair.mpr ⟨hleft, hright⟩)
  · cases kind <;> first | rfl | cases hkind
  · have hi : i ≤ 1 := Nat.le_of_lt_succ (List.getElem?_eq_some_iff.mp hc).1
    unfold Head.Seats
    cases kind <;> first | exact hi | trivial
  · cases kind <;> first | rfl | cases hkind

/-- A node of a unary operator with its operand. -/
theorem bare_unaryNode {kind : Kind} {operand : Tree} (hkind : kind.isUnary)
    (hoperand : operand.Built) : Bare (.ofList kind span [operand]) := by
  refine bare_seated ?_ (fun i c hc => ?_) (by rintro rfl; cases hkind) ?_
    (List.forall_mem_singleton.mpr hoperand)
  · cases kind <;> first | rfl | cases hkind
  · have hi : i = 0 := Nat.lt_one_iff.mp (List.getElem?_eq_some_iff.mp hc).1
    unfold Head.Seats
    cases kind <;> first | exact hi | trivial
  · cases kind <;> first | rfl | cases hkind

section Expressions

variable {self : Self} (h : Forms self) (e : Surroundings)
include h

theorem bare_assignmentBelow : Ensures e (self .assignment) Bare := h.bare e .assignment

theorem bare_expression : Ensures e (expression self) Bare := by
  refine .next fun start => .bind (bare_assignmentBelow h e) fun first hfirst => ?_
  refine .next fun following => .ite (fun _ => ?_) fun _ => .pure hfirst
  refine .bind (.loop (I := AreBare) (Q := AreBare) (areBare_nil.cons hfirst) ?_) fun ts hts => ?_
  · intro ts hts
    refine .next fun more => .ite (fun _ => ?_) fun _ => .pure hts.reverse
    exact .bind (bare_assignmentBelow h e) fun part hpart => .pure (hts.cons hpart)
  · exact .next fun span => .pure (bare_ofList rfl hts.built)

theorem bare_parenExpression : Ensures e (parenExpression self) Bare := by
  refine .next fun _ => .bind (.withReader (bare_expression h _)) fun inner hinner => ?_
  exact .next fun _ => .pure hinner

omit h in
theorem bare_binaryTurn {operand : Production Tree} {left : Tree} {tighter : Nat} {start : Span}
    (hoperand : Ensures e operand Bare) (hleft : Bare left) :
    Ensures e (binaryTurn operand tighter start left) (Turn.Keeps Bare Bare) := by
  refine .next fun token => ?_
  split
  case h_2 => exact .pure hleft
  case h_1 level op hop =>
      refine .read_bind (.ite (fun _ => ?_) fun _ => .pure hleft)
      refine .next fun _ => .bind hoperand fun right hright => .next fun span => .pure ?_
      exact bare_binaryNode (isBinary_of_binaryOperator? hop) hleft.built hright.built

theorem bare_binary (n : Nat) : Ensures e (binary self n) Bare := by
  induction n with
  | zero => exact h.bare e .unary
  | succ n ih =>
      refine .next fun start => .bind ih fun first hfirst => ?_
      exact .loop hfirst fun left hleft => bare_binaryTurn e ih hleft

theorem bare_conditional : Ensures e (conditional self) Bare := by
  refine .next fun start => .bind (bare_binary h e _) fun condition hcondition => ?_
  refine .next fun more => .ite (fun _ => ?_) fun _ => .pure hcondition
  refine .bind (.withReader (bare_assignmentBelow h _)) fun thenPart hthen => .next fun _ => ?_
  refine .bind (bare_assignmentBelow h e) fun elsePart helse => .next fun span => .pure ?_
  exact bare_seated rfl (fun i c hc => Nat.le_of_lt_succ (List.getElem?_eq_some_iff.mp hc).1)
    (fun _ => Nat.le_refl 3) rfl (((areBare_nil.cons helse).cons hthen).cons hcondition).built

theorem bare_yieldExpression : Ensures e (yieldExpression self) Bare := by
  refine .next fun token => .read_bind (.ite (fun _ => ?_) fun _ => .reject_bind)
  refine .next fun following => ?_
  dsimp only
  refine .ite (fun _ => ?_) fun _ => ?_
  · exact .pure_bind (.next fun span => .pure (bare_ofList rfl nofun))
  · refine .bind (bare_assignmentBelow h e) fun value hvalue => ?_
    exact .pure_bind (.next fun span => .pure (bare_ofList rfl (areBare_nil.cons hvalue).built))

theorem bare_assignment : Ensures e (assignment self) Bare := by
  refine .next fun first => .ite (fun _ => bare_yieldExpression h e) fun _ => ?_
  refine .bind (bare_conditional h e) fun target htarget => .next fun token => ?_
  refine .ite (fun _ => ?_) fun _ => .pure htarget
  refine .next fun _ => .ite (fun _ => ?_) fun _ => .reject_bind
  refine .bind (bare_assignmentBelow h e) fun value hvalue => .next fun span => .pure ?_
  exact bare_plain rfl rfl rfl ((areBare_nil.cons hvalue).cons htarget).built

theorem bare_unary : Ensures e (unary self) Bare := by
  have hoperand : Ensures e (self .unary) Bare := h.bare e .unary
  refine .next fun token => ?_
  split
  case h_1 op hop =>
      refine .bind hoperand fun operand hoperand => .next fun span => .pure ?_
      exact bare_unaryNode (isUnary_of_unaryOperator? hop) hoperand.built
  case h_2 =>
      have hupdate : ∀ {op : Kind}, op = .increment ∨ op = .decrement → op.asksNothing := by
        rintro op (rfl | rfl) <;> rfl
      split
      case h_1 op hop =>
          refine .bind hoperand fun operand hoperand => .next fun _ => .next fun span => .pure ?_
          exact bare_ofList (hupdate (eq_of_updateOperator? hop)) (areBare_nil.cons hoperand).built
      case h_2 =>
          refine .next fun _ => .bind (h.bare e (.member true)) fun operand hoperand => ?_
          refine .next fun following => ?_
          split
          case h_2 => exact .pure hoperand
          case h_1 op hop =>
              refine .next fun _ => .next fun _ => .next fun span => .pure ?_
              exact bare_plain (hupdate (eq_of_updateOperator? hop)) rfl rfl
                (areBare_nil.cons hoperand).built

omit h in
theorem bare_propertyKey (token : Token) :
    Ensures e (propertyKey token) fun t => Bare t ∧ t.kind.isKey := by
  rw [propertyKey]
  split
  · exact .pure ⟨bare_literal (by simp) rfl rfl, rfl⟩
  · exact .pure ⟨bare_literal (by simp) rfl rfl, rfl⟩
  · split
    · exact .pure ⟨bare_identifier _ _, rfl⟩
    · exact .unexpected _ _

theorem barePattern_binding (wanted : Wanted) :
    Ensures e (binding self wanted) BarePattern := by
  refine .next fun token => ?_
  split
  · exact h.pattern e
  · exact h.pattern e
  · exact .next fun _ => .pure (barePattern_identifier _ _)
  · exact .unexpected _ _

omit h in
/-- What an array is made of has what a hole has. -/
theorem forall_mem_elements {P : Tree → Prop} {elements : List (Option Tree)}
    (hhole : P (.leaf .hole span)) (helements : ∀ t, some t ∈ elements → P t) :
    ∀ t ∈ elements.map fun e => e.getD (.leaf .hole span), P t := by
  intro t ht
  obtain ⟨element, helement, rfl⟩ := List.mem_map.mp ht
  cases element with
  | none => exact hhole
  | some t => exact helements t helement

omit h in
theorem bare_hole : Bare (.leaf .hole span) := bare_literal (by simp) rfl rfl

theorem barePattern_arrayPatternElements :
    Ensures e (arrayPatternElements self) fun elements =>
      ∀ t, some t ∈ elements → BarePattern t := by
  refine .loop (I := fun elements => ∀ t, some t ∈ elements → BarePattern t) nofun ?_
  intro elements helements
  refine .next fun token => .ite (fun _ => ?_) fun _ => .ite (fun _ => ?_) fun _ => ?_
  · exact .next fun _ => .pure (forall_some_mem_reverse helements)
  · exact .next fun _ => .pure (forall_some_mem_cons nofun helements)
  · refine .bind (barePattern_binding h e _) fun element helement => .next fun after => ?_
    have hmore : ∀ t, some t ∈ some element :: elements → BarePattern t :=
      forall_some_mem_cons (by rintro _ ⟨⟩; exact helement) helements
    refine .ite (fun _ => .pure (forall_some_mem_reverse hmore)) fun _ => ?_
    exact .ite (fun _ => .pure hmore) fun _ => .unexpected _ _

omit h in
/-- A pair of a key and a pattern. -/
structure IsPatternProperty (t : Tree) : Prop extends Bare t where
  kind : t.kind = .propertyInit
  value : ∀ value, t.children[1]? = some value → value.IsPattern

omit h in
theorem isPatternProperty {key value : Tree} (hkey : Bare key) (hkind : key.kind.isKey)
    (hvalue : BarePattern value) : IsPatternProperty (.ofList .propertyInit span [key, value]) := by
  refine ⟨bare_property hkey hkind hvalue.toBare, rfl, fun other hother => ?_⟩
  obtain rfl := Option.some_inj.mp hother
  exact hvalue.pattern

theorem isPatternProperty_propertyPattern (token : Token) :
    Ensures e (propertyPattern self token) IsPatternProperty := by
  have hkeyed : Ensures e (do
      let key ← propertyKey token
      let _ ← expect .colon
      let value ← binding self .variableName
      return .ofList .propertyInit (← spanFrom token.span) [key, value]) IsPatternProperty := by
    refine .bind (bare_propertyKey e token) fun key hkey => .next fun _ => ?_
    refine .bind (barePattern_binding h e _) fun value hvalue => ?_
    exact .next fun _ => .pure (isPatternProperty hkey.1 hkey.2 hvalue)
  rw [propertyPattern]
  split
  case h_1 name _ =>
      have hname := barePattern_identifier name token.span
      refine .next fun more => ?_
      dsimp only
      refine .ite (fun _ => ?_) fun _ => ?_
      · refine .bind (barePattern_binding h e _) fun value hvalue => ?_
        exact .next fun _ => .pure (isPatternProperty hname.toBare rfl hvalue)
      · exact .pure_bind (.next fun _ => .pure (isPatternProperty hname.toBare rfl hname))
  · exact hkeyed
  · exact hkeyed
  · exact hkeyed
  · exact .unexpected _ _

theorem isPatternProperty_objectPatternProperties :
    Ensures e (objectPatternProperties self) fun ts => ∀ t ∈ ts, IsPatternProperty t := by
  refine .loop (I := fun ts => ∀ t ∈ ts, IsPatternProperty t) nofun fun ts hts => ?_
  refine .next fun token => .ite (fun _ => .pure (forall_mem_reverse hts)) fun _ => ?_
  refine .bind (isPatternProperty_propertyPattern h e token) fun t ht => .next fun after => ?_
  have hmore := List.forall_mem_cons.mpr ⟨ht, hts⟩
  refine .ite (fun _ => .pure (forall_mem_reverse hmore)) fun _ => ?_
  exact .ite (fun _ => .pure hmore) fun _ => .unexpected _ _

theorem barePattern_pattern : Ensures e (pattern self) BarePattern := by
  refine .next fun token => ?_
  split
  · refine .bind (barePattern_arrayPatternElements h e) fun elements helements => ?_
    refine .next fun span => .pure ⟨bare_ofList rfl ?_, .array rfl ?_⟩
    · exact forall_mem_elements bare_hole.built fun t ht => (helements t ht).built
    · exact forall_mem_elements (.leaf (.inr rfl)) fun t ht => (helements t ht).pattern
  · refine .bind (isPatternProperty_objectPatternProperties h e) fun ts hts => ?_
    refine .next fun span => .pure ⟨bare_object fun t ht => ?_, .object rfl ?_ ?_⟩
    · exact ⟨(hts t ht).toBare, .inl (hts t ht).kind⟩
    · exact fun t ht => (hts t ht).kind
    · exact fun t ht => (hts t ht).value
  · exact .unexpected _ _

/-! ### Comprehensions, calls and arrays -/

omit h in
/-- The parts of a loop over keys have different roles. -/
theorem bare_forIn {each : Bool} (hroles : ts.Pairwise fun a b => a.head.role ≠ b.head.role)
    (hchildren : ∀ t ∈ ts, t.Built) :
    Bare (.node { kind := .forIn, span, flags := { each } } ts) :=
  ⟨rfl, Tree.built_of_roles (Head.complete_of_kind nofun nofun rfl rfl) (fun _ _ _ => trivial)
    hroles nofun (fun _ _ _ => trivial) nofun rfl hchildren⟩

theorem bare_comprehensionFor : Ensures e (comprehensionFor self) Bare := by
  refine .next fun s => .next fun each => .next fun _ => ?_
  refine .bind (barePattern_binding h e _) fun iterator hiterator => .next fun _ => ?_
  refine .bind (.withReader (bare_expression h _)) fun object hobject => .next fun _ => ?_
  refine .next fun span => .pure (bare_forIn (by simp [head_withRole]) ?_)
  exact forall_mem_pair.mpr ⟨hiterator.part rfl, hobject.part rfl⟩

theorem bare_comprehensionTail : Ensures e (comprehensionTail self) Bare := by
  refine .next fun start => .bind (.loop (I := AreBare) (Q := AreBare) nofun ?_) ?_
  · intro clauses hclauses
    refine .next fun more => .ite (fun _ => ?_) fun _ => .pure hclauses.reverse
    exact .bind (bare_comprehensionFor h e) fun clause hclause => .pure (hclauses.cons hclause)
  · intro clauses hclauses
    refine .next fun more => ?_
    dsimp only
    refine .ite_bind (fun _ => .optional (bare_parenExpression h e)) (fun _ => .pure nofun)
      fun guard hguard => .next fun span => .pure (bare_ofList rfl ?_)
    refine List.forall_mem_append.mpr ⟨hclauses.built, ?_⟩
    exact forall_mem_part fun t ht => (hguard t ht).part rfl

omit h in
theorem bare_comprehension {kind : Kind} {value tail : Tree} (hkind : kind.asksNothing)
    (hvalue : Bare value) (htail : Bare tail) : Bare (comprehension kind value tail span) :=
  bare_ofList hkind (forall_mem_pair.mpr ⟨hvalue.part rfl, htail.part rfl⟩)

theorem areBare_argumentTurn (hts : AreBare ts) :
    Ensures e (argumentTurn self ts) (Turn.Keeps AreBare AreBare) := by
  have hrest : ∀ argument, Bare argument → Ensures e (do
      if ← accept .comma then return .again (argument :: ts)
      return .done (argument :: ts).reverse) (Turn.Keeps AreBare AreBare) := by
    intro argument hargument
    have hmore := hts.cons hargument
    exact .next fun more => .ite (fun _ => .pure hmore) fun _ => .pure hmore.reverse
  refine .next fun start => .bind (bare_assignmentBelow h e) fun value hvalue => ?_
  refine .next fun following => ?_
  dsimp only
  refine .ite (fun _ => ?_) fun _ => .pure_bind (hrest _ hvalue)
  refine .bind (bare_comprehensionTail h e) fun tail htail => .next fun span => ?_
  refine .ite (fun _ => ?_) fun _ => .reject_bind
  refine .next fun closing => .ite (fun _ => ?_) fun _ => .reject_bind
  exact .pure_bind (hrest _ (bare_comprehension rfl hvalue htail))

theorem areBare_arguments : Ensures e (arguments self) AreBare := by
  refine .withReader (.next fun closed => .ite (fun _ => .pure areBare_nil) fun _ => ?_)
  refine .bind (.loop areBare_nil fun _ => areBare_argumentTurn h _) fun args hargs => ?_
  exact .next fun _ => .pure hargs

omit h in
/-- A node with arguments behind its first part. -/
theorem bare_applied {kind : Kind} {callee : Tree} {span' : Span} (hkind : kind.asksNothing)
    (hcallee : Bare callee) (hts : AreBare ts) :
    Bare (.ofList kind span [callee, .ofList .list span' ts]) :=
  bare_ofList hkind (forall_mem_pair.mpr ⟨hcallee.built, (bare_ofList rfl hts.built).built⟩)

theorem bare_suffixTurn {calls : Bool} {start : Span} {object : Tree} (hobject : Bare object) :
    Ensures e (suffixTurn self calls start object) (Turn.Keeps Bare Bare) := by
  refine .next fun token => ?_
  split
  · refine .next fun nameToken => ?_
    split
    · exact .next fun span => .pure (bare_access hobject _)
    · exact .unexpected _ _
  · refine .bind (.withReader (bare_expression h _)) fun index hindex => .next fun _ => ?_
    refine .next fun span => .pure (bare_ofList rfl ?_)
    exact forall_mem_pair.mpr ⟨hobject.built, hindex.built⟩
  · refine .ite (fun _ => ?_) fun _ => .next fun _ => .pure hobject
    refine .bind (areBare_arguments h e) fun args hargs => .next fun span => .pure ?_
    exact bare_applied rfl hobject hargs
  · exact .next fun _ => .pure hobject

theorem bare_memberSuffixes {calls : Bool} {start : Span} {first : Tree} (hfirst : Bare first) :
    Ensures e (memberSuffixes self calls start first) Bare :=
  .loop hfirst fun _ => bare_suffixTurn h e

omit h in
/-- What stands in the brackets of an array is formed. -/
def AreBareElements : Elements → Prop
  | .inl elements => ∀ t, some t ∈ elements → Bare t
  | .inr (value, tail) => Bare value ∧ Bare tail

theorem bare_elementTurn {elements : List (Option Tree)}
    (helements : ∀ t, some t ∈ elements → Bare t) : Ensures e (elementTurn self elements)
      (Turn.Keeps (fun elements => ∀ t, some t ∈ elements → Bare t) AreBareElements) := by
  refine .next fun token => .ite (fun _ => ?_) fun _ => .ite (fun _ => ?_) fun _ => ?_
  · exact .next fun _ => .pure (forall_some_mem_reverse helements)
  · exact .next fun _ => .pure (forall_some_mem_cons nofun helements)
  · refine .bind (bare_assignmentBelow h e) fun element helement => ?_
    have hmore : ∀ t, some t ∈ some element :: elements → Bare t :=
      forall_some_mem_cons (by rintro _ ⟨⟩; exact helement) helements
    have hrest : Ensures e (do
        let after ← next false
        if after.isPunctuator .closeBracket then
          return .done (.inl (some element :: elements).reverse)
        if after.isPunctuator .comma then return .again (some element :: elements)
        unexpected .commaOrBracket after)
        (Turn.Keeps (fun elements => ∀ t, some t ∈ elements → Bare t) AreBareElements) := by
      refine .next fun after => .ite (fun _ => .pure (forall_some_mem_reverse hmore)) fun _ => ?_
      exact .ite (fun _ => .pure hmore) fun _ => .unexpected _ _
    dsimp only
    refine .ite (fun _ => .next fun following => .ite (fun _ => ?_) fun _ => hrest) fun _ => hrest
    refine .bind (bare_comprehensionTail h e) fun tail htail => .next fun _ => .pure ?_
    exact ⟨helement, htail⟩

theorem bare_arrayLiteral (start : Span) : Ensures e (arrayLiteral self start) Bare := by
  refine .bind (.loop (I := fun elements => ∀ t, some t ∈ elements → Bare t) nofun
    fun _ => bare_elementTurn h e) fun elements helements => ?_
  split
  · refine .next fun span => .pure (bare_ofList rfl ?_)
    exact forall_mem_elements bare_hole.built fun t ht => (helements t ht).built
  · exact .next fun span => .pure (bare_comprehension rfl helements.1 helements.2)

theorem bare_parenthesized (start : Span) : Ensures e (parenthesized self start) Bare := by
  refine .bind (bare_expression h e) fun value hvalue => .next fun following => ?_
  dsimp only
  refine .ite (fun _ => ?_) fun _ => .pure_bind (.next fun _ => .pure hvalue.parenthesize)
  refine .bind (bare_comprehensionTail h e) fun tail htail => .next fun span => ?_
  exact .pure_bind (.next fun _ => .pure (bare_comprehension rfl hvalue htail).parenthesize)

/-! ### Declarations -/

omit h in
/-- A declaration without a role that has a name or a pattern. -/
structure BareDeclaration (t : Tree) : Prop extends Bare t where
  named : t.Named

omit h in
/-- A declaration has a name or a pattern, and an initial value or none. -/
theorem bareDeclaration_node {payload : Payload} {target initializer : List Tree}
    (htarget : (∃ name, payload = .text name) ∧ target = [] ∨
      payload = .none ∧ ∃ p, BarePattern p ∧ target = [p.withRole .names])
    (hinitializer : initializer = [] ∨ ∃ v, Bare v ∧ initializer = [v.withRole .initializer]) :
    BareDeclaration (.node { kind := .declaration, span, payload } (target ++ initializer)) := by
  have hnames : ∀ c ∈ target, c.head.role = some .names ∧ payload = .none ∧ c.IsPattern ∧ c.Built := by
    rcases htarget with ⟨-, rfl⟩ | ⟨hbare, p, hp, rfl⟩
    · exact nofun
    · exact List.forall_mem_singleton.mpr
        ⟨by rw [head_withRole], hbare, hp.pattern.withRole, hp.part rfl⟩
  have hvalues : ∀ c ∈ initializer, c.head.role = some .initializer ∧ c.Built := by
    rcases hinitializer with rfl | ⟨v, hv, rfl⟩
    · exact nofun
    · exact List.forall_mem_singleton.mpr ⟨by rw [head_withRole], hv.part rfl⟩
  refine ⟨⟨rfl, Tree.built_of_roles (Head.complete_of_kind nofun nofun rfl rfl) ?_ ?_ ?_
    (fun _ _ _ => trivial) nofun rfl ?_⟩, rfl, ?_⟩
  · refine List.forall_mem_append.mpr
      ⟨fun c hc _ => .inl ⟨(hnames c hc).1, ?_⟩, fun c hc _ => .inr (hvalues c hc).1⟩
    rw [(hnames c hc).2.1]
    rfl
  · refine List.pairwise_append.mpr ⟨?_, ?_, fun a ha b hb => ?_⟩
    · rcases htarget with ⟨-, rfl⟩ | ⟨-, p, -, rfl⟩
      · exact .nil
      · exact List.pairwise_singleton _ _
    · rcases hinitializer with rfl | ⟨v, -, rfl⟩
      · exact .nil
      · exact List.pairwise_singleton _ _
    · rw [(hnames a ha).1, (hvalues b hb).1]
      exact nofun
  · refine List.forall_mem_append.mpr ⟨fun c hc _ => (hnames c hc).2.2.1, fun c hc hbinds => ?_⟩
    rw [Head.binds, (hvalues c hc).1] at hbinds
    cases hbinds
  · exact List.forall_mem_append.mpr
      ⟨fun c hc => (hnames c hc).2.2.2, fun c hc => (hvalues c hc).2⟩
  · rcases htarget with ⟨⟨name, rfl⟩, -⟩ | ⟨-, p, -, rfl⟩
    · exact .inl rfl
    · refine .inr ⟨_, List.mem_append_left _ (List.mem_singleton_self _), ?_⟩
      rw [head_withRole]
      simp

theorem bareDeclaration_declaration (check : Bool) :
    Ensures e (declaration self check) fun result => BareDeclaration result.1 := by
  -- What is done once the name or pattern is read.
  have hrest : ∀ {payload : Payload} {names : List String} {target : List Tree} {token : Token},
      ((∃ name, payload = .text name) ∧ target = [] ∨
        payload = .none ∧ ∃ p, BarePattern p ∧ target = [p.withRole .names]) → Ensures e (do
        if check ∧ (← read).frames.isEmpty then checkRedeclaration names token.span.line
        let initializer ←
          if ← acceptPlainAssign then do pure [(← self .assignment).withRole .initializer]
          else pure []
        let span ← spanFrom token.span
        return (Tree.node { kind := .declaration, span, payload } (target ++ initializer),
          initializer.isEmpty && !target.isEmpty)) fun result => BareDeclaration result.1 := by
    intro payload names target token htarget
    refine .read_bind (.ite (fun _ => .next fun _ => ?_) fun _ => ?_)
    all_goals
      refine .next fun initialized => .ite (fun _ => ?_) fun _ => ?_
      · refine .bind (bare_assignmentBelow h e) fun value hvalue => .pure_bind ?_
        exact .next fun span => .pure (bareDeclaration_node htarget (.inr ⟨value, hvalue, rfl⟩))
      · refine .pure_bind (.next fun span => .pure ?_)
        exact bareDeclaration_node htarget (.inl rfl)
  refine .next fun token => ?_
  dsimp only
  split
  · exact .pure_bind (hrest (.inl ⟨⟨_, rfl⟩, rfl⟩))
  · refine .next fun _ => .bind (h.pattern e) fun target htarget => .pure_bind ?_
    exact hrest (.inr ⟨rfl, target, htarget, rfl⟩)
  · refine .next fun _ => .bind (h.pattern e) fun target htarget => .pure_bind ?_
    exact hrest (.inr ⟨rfl, target, htarget, rfl⟩)
  · exact .unexpected_bind

omit h in
theorem bare_declarationList {kind : Kind} (hkind : kind.isDeclarationList)
    (hts : ∀ t ∈ ts, BareDeclaration t) : Bare (.ofList kind span ts) := by
  have hplain : kind.isRigid = false ∧ kind.isSeated = false ∧ kind.isStatementList = false := by
    cases kind <;> first | exact ⟨rfl, rfl, rfl⟩ | cases hkind
  have hne : kind ≠ .conditional := by
    rintro rfl
    cases hkind
  have hformed : (Tree.ofList kind span ts).Formed :=
    Tree.formed_plain (.inl hplain.1) rfl (by cases kind <;> rfl) fun t ht => (hts t ht).built.formed
  refine ⟨rfl, hformed, .node (fun _ _ _ => Head.seats_of_not_isSeated hplain.2.1) fun t ht => ?_,
    .node (fun h => absurd h hne) (fun h => ?_) (fun _ t ht => (hts t ht).named) fun t ht => ?_⟩
  · exact (hts t ht).built.seated
  · rw [hplain.2.2] at h
    cases h
  · exact (hts t ht).built.full

theorem bare_declarations (start : Span) {kind : Kind} (hkind : kind.isDeclarationList)
    (check : Bool) : Ensures e (declarations self start kind check) fun list => Bare list.tree := by
  refine .bind (.loop (I := fun state => ∀ t ∈ state.1, BareDeclaration t)
    (Q := fun result => ∀ t ∈ result.1, BareDeclaration t) nofun ?_) ?_
  · rintro ⟨trees, openPattern⟩ htrees
    refine .bind (bareDeclaration_declaration h e _) fun result hresult => ?_
    have hmore := List.forall_mem_cons.mpr ⟨hresult, htrees⟩
    exact .next fun more => .ite (fun _ => .pure hmore) fun _ => .pure (forall_mem_reverse hmore)
  · rintro ⟨trees, openPattern⟩ htrees
    exact .next fun span => .pure (bare_declarationList hkind htrees)

theorem bare_letHead (start : Span) : Ensures e (letHead self start) Bare := by
  refine .next fun _ => .bind (.withReader (bare_declarations h _ start rfl false)) ?_
  intro list hlist
  exact .ite (fun _ => .reject_bind) fun _ => .next fun _ => .pure hlist

/-! ### Functions -/

theorem areBare_statementsToBrace : Ensures e (statementsToBrace self) AreBare := by
  refine .loop areBare_nil fun statements hstatements => .next fun token => ?_
  refine .ite (fun _ => .next fun _ => .pure hstatements.reverse) fun _ => ?_
  refine .ite (fun _ => .reject_bind) fun _ => ?_
  exact .bind (h.bare e .statement) fun statement hstatement => .pure (hstatements.cons hstatement)

theorem barePattern_parameters :
    Ensures e (parameters self) fun params => ∀ p ∈ params, BarePattern p := by
  refine .next fun closed => .ite (fun _ => .pure nofun) fun _ => ?_
  refine .loop (I := fun params => ∀ p ∈ params, BarePattern p) nofun fun params hparams => ?_
  refine .bind (barePattern_binding h e _) fun param hparam => .next fun closed => ?_
  have hmore := List.forall_mem_cons.mpr ⟨hparam, hparams⟩
  exact .ite (fun _ => .pure (forall_mem_reverse hmore)) fun _ => .next fun _ => .pure hmore

theorem bare_functionBody : Ensures e (functionBody self) fun result =>
    Bare result.1 ∧ result.1.kind = .script := by
  refine .next fun token => .ite (fun _ => ?_) fun _ => ?_
  · refine .next fun opening => .next fun s => ?_
    refine .bind (.withReader (areBare_statementsToBrace h _)) fun ts hts => ?_
    exact .next fun span => .pure ⟨bare_statements rfl hts, rfl⟩
  · refine .bind (bare_assignmentBelow h e) fun value hvalue => .pure ⟨bare_statements rfl ?_, rfl⟩
    refine List.forall_mem_singleton.mpr (bare_ofList rfl ?_)
    exact List.forall_mem_singleton.mpr (hvalue.part rfl)

/-- A formed function that was introduced in a certain way. -/
structure FormedFunction (form : FunctionForm) (t : Tree) : Prop extends Bare t where
  kind : t.kind = .function
  form : t.head.form = some form

theorem formedFunction_functionRest (start : Span) (name : Option String) {form : FunctionForm}
    {accessor : Option Accessor} (haccessor : accessor.isSome → form = .expressed) :
    Ensures e (functionRest self start name form accessor) (FormedFunction form) := by
  refine .next fun _ => .bind (barePattern_parameters h e) fun params hparams => ?_
  refine .bind (.withReader (bare_functionBody h _)) fun result hresult => ?_
  obtain ⟨body, bareBody⟩ := result
  obtain ⟨hbody, hscript⟩ := hresult
  refine .next fun span => .pure ⟨⟨rfl, Tree.built_of_roles ?_ ?_ ?_ ?_
    (fun _ _ _ => trivial) nofun rfl ?_⟩, rfl, rfl⟩
  · refine ⟨nofun, fun _ => rfl, fun h => ?_, nofun, nofun⟩
    rw [haccessor]
    cases accessor with
    | none => cases h
    | some _ => rfl
  · refine forall_mem_pair.mpr ⟨fun _ => .inl ⟨rfl, rfl⟩, fun _ => .inr ?_⟩
    rw [head_withRole]
    exact ⟨rfl, hscript⟩
  · rw [List.pairwise_pair, head_withRole, head_withRole]
    exact nofun
  · refine forall_mem_pair.mpr ⟨nofun, nofun⟩
  · refine forall_mem_pair.mpr ⟨?_, hbody.part rfl⟩
    -- The parameters are the patterns that the list binds.
    refine Tree.built_node (.node ⟨nofun, nofun, nofun, fun _ => rfl, nofun⟩ (fun _ _ _ => trivial)
      nofun ?_) (fun _ _ _ => trivial) nofun rfl ?_
    · exact fun p hp _ => (hparams p hp).pattern
    · exact fun p hp => (hparams p hp).built

theorem formedFunction_function (start : Span) (form : FunctionForm) (named : Bool) :
    Ensures e (function self start form named) (FormedFunction form) := by
  have hrest : ∀ name, Ensures e (functionRest self start name form none) (FormedFunction form) :=
    fun name => formedFunction_functionRest h e _ _ nofun
  refine .next fun token => ?_
  dsimp only
  split
  · exact .next fun _ => .pure_bind (.ite (fun _ => .reject_bind) fun _ => hrest _)
  · exact .pure_bind (.ite (fun _ => .reject_bind) fun _ => hrest _)

/-! ### Object literals and primary expressions -/

theorem isProperty_property (token : Token) : Ensures e (property self token) IsProperty := by
  refine .next fun following => ?_
  dsimp only
  split
  · refine .next fun _ => (formedFunction_functionRest h e _ _ fun _ => rfl).mono fun t ht => ?_
    exact ⟨ht.toBare, .inr ⟨ht.kind, ht.form⟩⟩
  · refine .bind (bare_propertyKey e token) fun key hkey => .next fun _ => ?_
    refine .bind (bare_assignmentBelow h e) fun value hvalue => .next fun span => .pure ?_
    exact ⟨bare_property hkey.1 hkey.2 hvalue, .inl rfl⟩

theorem bare_objectLiteral (start : Span) : Ensures e (objectLiteral self start) Bare := by
  refine .bind (.loop (I := fun ts => ∀ t ∈ ts, IsProperty t)
    (Q := fun ts => ∀ t ∈ ts, IsProperty t) nofun fun ts hts => ?_)
    fun ts hts => .next fun span => .pure (bare_object hts)
  refine .next fun token => .ite (fun _ => .pure (forall_mem_reverse hts)) fun _ => ?_
  refine .bind (isProperty_property h e token) fun t ht => .next fun after => ?_
  have hmore := List.forall_mem_cons.mpr ⟨ht, hts⟩
  refine .ite (fun _ => .pure (forall_mem_reverse hmore)) fun _ => ?_
  exact .ite (fun _ => .pure hmore) fun _ => .unexpected _ _

theorem bare_primary : Ensures e (primary self) Bare := by
  refine .next fun token => ?_
  dsimp only
  split
  · exact (formedFunction_function h e _ _ _).mono fun t ht => ht.toBare
  · exact .withReader (bare_arrayLiteral h _ _)
  · exact .withReader (bare_objectLiteral h _ _)
  · exact .withReader (bare_parenthesized h _ _)
  · refine .bind (bare_letHead h e _) fun list hlist => ?_
    refine .bind (bare_assignmentBelow h e) fun value hvalue => .next fun span => .pure ?_
    exact bare_ofList rfl (forall_mem_pair.mpr ⟨hlist.part rfl, hvalue.part rfl⟩)
  all_goals first
    | exact .pure (bare_identifier _ _)
    | exact .pure (bare_literal (by simp) rfl rfl)
    | exact .unexpected _ _

theorem bare_member (calls : Bool) : Ensures e (member self calls) Bare := by
  refine .next fun token => ?_
  dsimp only
  refine .ite (fun _ => ?_) fun _ => ?_
  · refine .bind (h.bare e (.member false)) fun callee hcallee => .next fun called => ?_
    refine .ite (fun _ => ?_) fun _ => ?_
    · refine .bind (areBare_arguments h e) fun args hargs => .next fun span => .pure_bind ?_
      exact bare_memberSuffixes h e (bare_applied rfl hcallee hargs)
    · refine .next fun span => .pure_bind (bare_memberSuffixes h e ?_)
      exact bare_ofList rfl (areBare_nil.cons hcallee).built
  · refine .next fun _ => .bind (bare_primary h e) fun first hfirst => ?_
    exact bare_memberSuffixes h e hfirst

end Expressions

/-! ### Statements -/

section Statements

variable {self : Self} (h : Forms self) (e : Surroundings)
include h

theorem bare_statementIn (frame : Frame) : Ensures e (statementIn self frame) Bare :=
  .withReader (h.bare _ .statement)

theorem bare_block (start : Span) : Ensures e (block self start) Bare := by
  refine .withReader (.bind (areBare_statementsToBrace h _) fun ts hts => ?_)
  exact .next fun span => .pure (bare_statements rfl hts)

theorem bare_bracedBlock : Ensures e (bracedBlock self) Bare := .next fun _ => bare_block h e _

theorem bare_expressionStatement (start : Span) :
    Ensures e (expressionStatement self start) Bare := by
  refine .bind (bare_expression h e) fun value hvalue => .next fun _ => .next fun span => .pure ?_
  exact bare_ofList rfl (List.forall_mem_singleton.mpr (hvalue.part rfl))

omit h in
/-- The parts of an `if` have different roles. -/
theorem bare_ifElse {condition thenPart : Tree} {elsePart : Option Tree}
    (hcondition : Bare condition) (hthen : Bare thenPart) (helse : ∀ t ∈ elsePart, Bare t) :
    Bare (.ofList .ifElse span ([condition.withRole .condition, thenPart.withRole .thenPart] ++
      Tree.part .elsePart elsePart)) := by
  have hparts : ∀ t ∈ [condition.withRole .condition, thenPart.withRole .thenPart] ++
      Tree.part .elsePart elsePart, t.Built := by
    refine List.forall_mem_append.mpr ⟨?_, forall_mem_part fun t ht => (helse t ht).part rfl⟩
    exact forall_mem_pair.mpr ⟨hcondition.part rfl, hthen.part rfl⟩
  refine ⟨rfl, Tree.built_of_roles (Head.complete_of_kind nofun nofun rfl rfl) ?_ ?_ nofun ?_
    nofun rfl hparts⟩
  · exact fun _ _ _ => trivial
  · cases elsePart <;> simp [Tree.part, head_withRole]
  · refine List.forall_mem_append.mpr ⟨forall_mem_pair.mpr ⟨fun _ => .inl ?_, fun _ =>
      .inr (.inl ?_)⟩, forall_mem_part fun t _ _ => .inr (.inr ?_)⟩
    all_goals rw [head_withRole]

theorem bare_ifStatement (start : Span) : Ensures e (ifStatement self start) Bare := by
  refine .bind (bare_parenExpression h e) fun condition hcondition => ?_
  refine .bind (bare_statementIn h e .other) fun thenPart hthen => .next fun more => ?_
  dsimp only
  exact .ite_bind (fun _ => .optional (bare_statementIn h e .other)) (fun _ => .pure nofun)
    fun elsePart helse => .next fun span => .pure (bare_ifElse hcondition hthen helse)

theorem areBare_clauseStatements : Ensures e (clauseStatements self) AreBare := by
  refine .loop areBare_nil fun statements hstatements => .next fun token => ?_
  refine .ite (fun _ => .pure hstatements.reverse) fun _ => .ite (fun _ => .reject_bind) fun _ => ?_
  exact .bind (h.bare e .statement) fun statement hstatement => .pure (hstatements.cons hstatement)

/-- A clause of a `switch`. -/
structure IsClause (t : Tree) : Prop extends Bare t where
  kind : t.kind = .caseClause ∨ t.kind = .defaultClause

theorem isClause_clause (start : Span) {label : Option Tree} (hlabel : ∀ t ∈ label, Bare t) :
    Ensures e (clause self start label) IsClause := by
  refine .next fun _ => .bind (areBare_clauseStatements h e) fun ts hts => .next fun span => ?_
  have hbody : ((Tree.ofList .block span ts).withRole .statements).Built :=
    (bare_statements rfl hts).asStatements rfl
  dsimp only
  split
  case h_1 label =>
      refine .pure ⟨bare_seated rfl (fun i c hc => ?_) nofun rfl
        (forall_mem_pair.mpr ⟨?_, hbody⟩), .inl rfl⟩
      · match i with
        | 0 =>
            obtain rfl := Option.some_inj.mp hc
            exact .inl ⟨rfl, by rw [head_withRole]⟩
        | 1 =>
            obtain rfl := Option.some_inj.mp hc
            exact .inr ⟨rfl, rfl⟩
        | _ + 2 => cases hc
      · exact (hlabel label rfl).part rfl
  case h_2 =>
      refine .pure ⟨bare_seated rfl (fun i c hc => ?_) nofun rfl
        (List.forall_mem_singleton.mpr hbody), .inr rfl⟩
      match i with
      | 0 =>
          obtain rfl := Option.some_inj.mp hc
          exact ⟨rfl, rfl⟩
      | _ + 1 => cases hc

theorem areClauses_clauses : Ensures e (clauses self) fun ts => ∀ t ∈ ts, IsClause t := by
  refine .loop (I := fun state => ∀ t ∈ state.1, IsClause t) nofun ?_
  rintro ⟨clauses, hasDefault⟩ hclauses
  refine .next fun token => ?_
  split
  · exact .pure (forall_mem_reverse hclauses)
  · refine .bind (bare_expression h e) fun label hlabel => ?_
    refine .bind (isClause_clause h e _ (by rintro _ ⟨⟩; exact hlabel)) fun clause hclause => ?_
    exact .pure (List.forall_mem_cons.mpr ⟨hclause, hclauses⟩)
  · refine .ite (fun _ => .reject_bind) fun _ => ?_
    refine .bind (isClause_clause h e _ nofun) fun clause hclause => ?_
    exact .pure (List.forall_mem_cons.mpr ⟨hclause, hclauses⟩)
  · exact .unexpected _ _

theorem bare_switchStatement (start : Span) : Ensures e (switchStatement self start) Bare := by
  refine .bind (bare_parenExpression h e) fun discriminant hdiscriminant => .next fun _ => ?_
  refine .bind (.withReader (areClauses_clauses h _)) fun clauses hclauses => ?_
  refine .next fun span => .pure (bare_seated rfl (fun i c hc => ?_) nofun rfl ?_)
  · match i with
    | 0 =>
        obtain rfl := Option.some_inj.mp hc
        exact .inl ⟨rfl, by rw [head_withRole]⟩
    | i + 1 => exact .inr ⟨Nat.succ_pos i, (hclauses c (List.mem_of_getElem? hc)).kind⟩
  · exact List.forall_mem_cons.mpr ⟨hdiscriminant.part rfl, fun t ht => (hclauses t ht).built⟩

/-! ### Loops -/

theorem bare_forSetup (token : Token) :
    Ensures e (forSetup self token) fun result => Bare result.1 := by
  refine .withReader ?_
  dsimp only
  split
  case h_1 kind hkind =>
      refine .next fun _ => .bind (bare_declarations h _ _ ?_ false) fun list hlist => .pure hlist
      split at hkind
      all_goals
        cases hkind
        try rfl
  case h_2 => exact .bind (bare_expression h _) fun value hvalue => .pure hvalue

theorem bare_optionalPart (ending : Punctuator) : Ensures e (optionalPart self ending) fun part =>
    ∀ t ∈ part, Bare t := by
  refine .next fun token => ?_
  dsimp only
  refine .ite_bind (fun _ => .pure nofun) (fun _ => .optional (bare_expression h e)) ?_
  exact fun part hpart => .next fun _ => .pure hpart

theorem bare_forStatement (start : Span) : Ensures e (forStatement self start) Bare := by
  have hfor : ∀ {setup : Option Tree}, (∀ t ∈ setup, Bare t) → Ensures e (do
      let _ ← expect .semicolon
      let condition ← optionalPart self .semicolon
      let update ← optionalPart self .closeParen
      let body ← statementIn self .loop
      return Tree.ofList .forLoop (← spanFrom start)
        (Tree.part .setup setup ++ Tree.part .condition condition ++ Tree.part .update update ++
          [body.withRole .body])) Bare := by
    intro setup hsetup
    refine .next fun _ => .bind (bare_optionalPart h e _) fun condition hcondition => ?_
    refine .bind (bare_optionalPart h e _) fun update hupdate => ?_
    refine .bind (bare_statementIn h e .loop) fun body hbody => .next fun span => .pure ?_
    refine bare_ofList rfl ?_
    simp only [List.forall_mem_append, List.forall_mem_singleton]
    refine ⟨⟨⟨?_, ?_⟩, ?_⟩, hbody.part rfl⟩
    · exact forall_mem_part fun t ht => (hsetup t ht).part rfl
    · exact forall_mem_part fun t ht => (hcondition t ht).part rfl
    · exact forall_mem_part fun t ht => (hupdate t ht).part rfl
  refine .next fun each => .next fun _ => .next fun token => ?_
  dsimp only
  refine .ite (fun _ => .pure_bind ?_) fun _ => ?_
  · refine .next fun isIn => .ite (fun _ => .reject_bind) fun _ => ?_
    exact .ite (fun _ => .reject_bind) fun _ => .ite (fun _ => .reject_bind) fun _ => hfor nofun
  · refine .bind (bare_forSetup h e token) fun result hresult => .pure_bind ?_
    refine .next fun isIn => .ite (fun _ => ?_) fun _ => .ite (fun _ => .reject_bind) fun _ => ?_
    · refine .next fun _ => .bind (bare_expression h e) fun object hobject => .next fun _ => ?_
      refine .bind (bare_statementIn h e .loop) fun body hbody => .next fun span => .pure ?_
      refine bare_forIn (by simp [head_withRole]) (List.forall_mem_cons.mpr ⟨hresult.part rfl, ?_⟩)
      exact forall_mem_pair.mpr ⟨hobject.part rfl, hbody.part rfl⟩
    · refine .ite (fun _ => .reject_bind) fun _ => hfor ?_
      rintro _ ⟨⟩
      exact hresult

theorem bare_whileStatement (start : Span) : Ensures e (whileStatement self start) Bare := by
  refine .bind (bare_parenExpression h e) fun condition hcondition => ?_
  refine .bind (bare_statementIn h e .loop) fun body hbody => .next fun span => .pure ?_
  exact bare_ofList rfl (forall_mem_pair.mpr ⟨hcondition.part rfl, hbody.part rfl⟩)

theorem bare_doStatement (start : Span) : Ensures e (doStatement self start) Bare := by
  refine .bind (bare_statementIn h e .loop) fun body hbody => .next fun _ => ?_
  refine .bind (bare_parenExpression h e) fun condition hcondition => .next fun _ => ?_
  refine .next fun span => .pure (bare_ofList rfl ?_)
  exact forall_mem_pair.mpr ⟨hbody.part rfl, hcondition.part rfl⟩

/-! ### Jumps and other statements -/

omit h in
theorem bare_jumpStatement (start : Span) (isContinue : Bool) :
    Ensures e (jumpStatement start isContinue) Bare := by
  refine .next fun token => ?_
  dsimp only
  -- With and without a label, the same follows.
  split <;> refine .next fun _ => .pure_bind (.read_bind ?_)
  all_goals
    split
    · exact .reject_bind
    · refine .next fun _ => .next fun span => .pure ?_
      cases isContinue <;> exact bare_literal (by simp) rfl rfl

theorem bare_returnStatement (start : Span) : Ensures e (returnStatement self start) Bare := by
  refine .read_bind (.ite (fun _ => ?_) fun _ => .reject_bind)
  have hrest : ∀ value : Option Tree, (∀ t ∈ value, Bare t) → Ensures e (do
      endStatement
      return Tree.ofList .returnStmt (← spanFrom start) (Tree.part .value value)) Bare := by
    intro value hvalue
    refine .next fun _ => .next fun span => .pure (bare_ofList rfl ?_)
    exact forall_mem_part fun t ht => (hvalue t ht).part rfl
  refine .next fun following => ?_
  dsimp only
  split
  all_goals first
    | exact .pure_bind (hrest _ nofun)
    | exact .bind (.optional (bare_expression h e)) hrest

omit h in
/-- The parts of a `catch` clause have different roles, and its exception is a pattern. -/
theorem bare_catchNode {exception body : Tree} {guard : Option Tree}
    (hexception : BarePattern exception) (hguard : ∀ t ∈ guard, Bare t) (hbody : Bare body) :
    Bare (.ofList .catchClause span ([exception.withRole .exception] ++ Tree.part .guard guard ++
      [body.withRole .block])) := by
  refine ⟨rfl, Tree.built_of_roles (Head.complete_of_kind nofun nofun rfl rfl)
    ?roles ?apart ?patterns (fun _ _ _ => trivial) nofun rfl ?parts⟩
  case roles =>
    simp only [List.forall_mem_append, List.forall_mem_singleton]
    refine ⟨⟨fun _ => .inl ?_, forall_mem_part fun t _ _ => .inr (.inl ?_)⟩,
      fun _ => .inr (.inr ?_)⟩
    all_goals rw [head_withRole]
  case patterns =>
    have hfree : ∀ (t : Tree) (role : Role), role ≠ .exception →
        Head.binds { kind := .catchClause, span } (t.withRole role).head → False := by
      intro t role hrole hbinds
      rw [head_withRole] at hbinds
      exact hrole (Option.some_inj.mp (eq_of_beq hbinds))
    simp only [List.forall_mem_append, List.forall_mem_singleton]
    refine ⟨⟨fun _ => hexception.pattern.withRole, forall_mem_part fun t _ hbinds => ?_⟩,
      fun hbinds => ?_⟩
    · exact (hfree t .guard nofun hbinds).elim
    · exact (hfree body .block nofun hbinds).elim
  case parts =>
    simp only [List.forall_mem_append, List.forall_mem_singleton]
    refine ⟨⟨hexception.part rfl, ?_⟩, hbody.part rfl⟩
    exact forall_mem_part fun t ht => (hguard t ht).part rfl
  case apart => cases guard <;> simp [Tree.part, head_withRole]

theorem bare_catchClause (start : Span) :
    Ensures e (catchClause self start) fun result => Bare result.1 := by
  refine .next fun _ => .bind (barePattern_binding h e _) fun exception hexception => ?_
  refine .next fun guarded => ?_
  dsimp only
  refine .ite_bind (fun _ => .optional (bare_expression h e)) (fun _ => .pure nofun)
    fun guard hguard => .next fun _ => ?_
  refine .bind (bare_bracedBlock h e) fun body hbody => .next fun span => .pure ?_
  exact bare_catchNode hexception hguard hbody

theorem areBare_catchClauses : Ensures e (catchClauses self) AreBare := by
  refine .loop (I := fun state => AreBare state.1) areBare_nil ?_
  rintro ⟨clauses, final⟩ hclauses
  refine .next fun more => .ite (fun _ => ?_) fun _ => .pure hclauses.reverse
  refine .next fun s => .ite (fun _ => .reject_bind) fun _ => ?_
  exact .bind (bare_catchClause h e _) fun result hresult => .pure (hclauses.cons hresult)

theorem bare_tryStatement (start : Span) : Ensures e (tryStatement self start) Bare := by
  refine .bind (bare_bracedBlock h e) fun body hbody => ?_
  refine .bind (areBare_catchClauses h e) fun catches hcatches => .next fun more => ?_
  dsimp only
  refine .ite_bind (fun _ => .optional (bare_bracedBlock h e)) (fun _ => .pure nofun)
    fun final hfinal => .ite (fun _ => .reject_bind) fun _ => .next fun span => .pure ?_
  refine bare_ofList rfl ?_
  simp only [List.forall_mem_append, List.forall_mem_singleton]
  refine ⟨⟨hbody.part rfl, hcatches.built⟩, ?_⟩
  exact forall_mem_part fun t ht => (hfinal t ht).part rfl

theorem bare_labelStatement (start : Span) (label : String) :
    Ensures e (labelStatement self start label) Bare := by
  refine .read_bind (.ite (fun _ => .reject_bind) fun _ => ?_)
  refine .bind (bare_statementIn h e (.label label)) fun statement hstatement => ?_
  refine .next fun span => .pure (bare_plain rfl rfl rfl ?_)
  exact List.forall_mem_singleton.mpr (hstatement.part rfl)

theorem bare_declarationStatement (start : Span) {kind : Kind} (hkind : kind.isDeclarationList) :
    Ensures e (declarationStatement self start kind) Bare := by
  refine .bind (bare_declarations h e start hkind true) fun list hlist => ?_
  exact .ite (fun _ => .reject_bind) fun _ => .next fun _ => .pure hlist

theorem bare_letStatement (start : Span) : Ensures e (letStatement self start) Bare := by
  refine .bind (bare_letHead h e start) fun list hlist => .next fun token => ?_
  refine .ite (fun _ => ?_) fun _ => ?_
  · refine .next fun opening => .bind (bare_block h e _) fun body hbody => .next fun span => ?_
    exact .pure (bare_ofList rfl (forall_mem_pair.mpr ⟨hlist.part rfl, hbody.part rfl⟩))
  · refine .bind (bare_assignmentBelow h e) fun value hvalue => ?_
    refine .next fun span => .next fun _ => .next fun span => .pure (bare_ofList rfl ?_)
    refine List.forall_mem_singleton.mpr (Bare.part (bare_ofList rfl ?_) rfl)
    exact forall_mem_pair.mpr ⟨hlist.part rfl, hvalue.part rfl⟩

theorem bare_bareStatement : Ensures e (bareStatement self) Bare := by
  refine .next fun token => ?_
  dsimp only
  split
  · exact .read_bind ((formedFunction_function h e _ _ _).mono fun t ht => ht.toBare)
  · exact bare_block h e _
  · exact .pure (bare_literal (by simp) rfl rfl)
  · exact bare_ifStatement h e _
  · exact bare_switchStatement h e _
  · exact bare_forStatement h e _
  · exact bare_whileStatement h e _
  · exact bare_doStatement h e _
  · exact bare_jumpStatement e _ _
  · exact bare_jumpStatement e _ _
  · exact bare_tryStatement h e _
  · refine .bind (bare_expression h e) fun value hvalue => .next fun _ => .next fun span => ?_
    exact .pure (bare_ofList rfl (List.forall_mem_singleton.mpr (hvalue.part rfl)))
  · exact bare_returnStatement h e _
  · refine .bind (bare_parenExpression h e) fun object hobject => ?_
    refine .bind (bare_statementIn h e .other) fun body hbody => .next fun span => .pure ?_
    exact bare_ofList rfl (forall_mem_pair.mpr ⟨hobject.part rfl, hbody.part rfl⟩)
  · exact .next fun _ => .next fun span => .pure (bare_literal (by simp) rfl rfl)
  · exact bare_declarationStatement h e _ rfl
  · exact bare_declarationStatement h e _ rfl
  · refine .next fun following => .ite (fun _ => ?_) fun _ => ?_
    · exact bare_letStatement h e _
    · exact bare_declarationStatement h e _ rfl
  · exact .reject _ _
  · exact .reject _ _
  · refine .next fun following => .ite (fun _ => .next fun _ => ?_) fun _ => .next fun _ => ?_
    · exact bare_labelStatement h e _ _
    · exact bare_expressionStatement h e _
  · exact .next fun _ => bare_expressionStatement h e _

theorem bare_statement : Ensures e (statement self) Bare :=
  .next fun _ => .next fun _ => .bind (bare_bareStatement h e) fun _ ht => .pure (ht.attach _)

end Statements

/-! ### Scripts -/

/-- Whatever the budget, what the productions read is formed. -/
theorem forms_derive (budget : Nat) : Forms (derive budget) := by
  induction budget with
  | zero => exact ⟨fun _ _ => .next fun _ => .reject _ _, fun _ => .next fun _ => .reject _ _⟩
  | succ budget ih =>
      refine ⟨fun e symbol => ?_, fun e => barePattern_pattern ih e⟩
      cases symbol with
      | statement => exact bare_statement ih e
      | assignment => exact bare_assignment ih e
      | unary => exact bare_unary ih e
      | member calls => exact bare_member ih e calls
      | pattern => exact (barePattern_pattern ih e).mono fun t ht => ht.toBare

end Grammar

open Grammar

variable {source : String} {line : Nat} {t : Tree}

/-- A script that is accepted is built as it should be. -/
theorem built_of_parseScript (h : parseScript source line = .ok t) :
    t.Built ∧ t.kind = .script := by
  refine ensures_run (Q := fun t => t.Built ∧ t.kind = .script) (fun budget e _ _ => ?_) h
  refine .next fun s => .next fun s => ?_
  refine .bind (.withReader (.loop (I := AreBare) (Q := AreBare) areBare_nil ?_)) ?_
  · intro statements hstatements
    refine .next fun done => .ite (fun _ => .pure hstatements.reverse) fun _ => ?_
    refine .bind ((forms_derive budget).bare _ .statement) fun statement hstatement => ?_
    exact .pure (hstatements.cons hstatement)
  · intro statements hstatements
    refine .next fun span => .next fun comments => .pure ⟨?_, rfl⟩
    exact (Bare.attach (bare_statements rfl hstatements) _).built

/-- A script that is accepted is formed. -/
theorem formed_of_parseScript (h : parseScript source line = .ok t) :
    t.Formed ∧ t.kind = .script :=
  (built_of_parseScript h).imp_left (·.formed)

/-- An expression that is accepted is built as it should be. -/
theorem built_of_parseExpression (h : parseExpression source line = .ok t) : t.Built := by
  refine ensures_run (fun budget e _ _ => ?_) h
  refine .bind (bare_expression (forms_derive budget) e) fun tree htree => .next fun token => ?_
  exact .ite (fun _ => .pure htree.built) fun _ => .unexpected _ _

/-- An expression that is accepted is formed. -/
theorem formed_of_parseExpression (h : parseExpression source line = .ok t) : t.Formed :=
  (built_of_parseExpression h).formed

end ScriptMin
