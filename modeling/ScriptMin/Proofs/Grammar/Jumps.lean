import ScriptMin.Proofs.Grammar.Ensuring
import ScriptMin.Proofs.Tree.Jumps

/-!
Jumps of parsed scripts. The constructs around a statement that the grammar keeps on its way down
are what its reach is made of. Main statement: every node of a script that is accepted is allowed
where it is.
-/

namespace ScriptMin.Grammar

variable {e : Surroundings}

/-! ### Reach of a statement -/

def Frame.inside (X : Reach) : Frame → Reach
  | .loop => { X with breaks := true, continues := true, loops := X.own ++ X.loops, own := [] }
  | .switch => { X with breaks := true, own := [] }
  | .label name => { X with labels := name :: X.labels, own := name :: X.own }
  | .other => X.idle

/-- The reach inside constructs of the same body. -/
def reach (inFunction : Bool) (frames : List Frame) : Reach :=
  frames.foldr (fun frame X => frame.inside X) { returns := inFunction }

def Surroundings.reach (e : Surroundings) : Reach := Grammar.reach e.inFunction e.frames

variable {inFunction : Bool} {frame : Frame} {frames : List Frame} {X : Reach} {name : String}

theorem reach_cons :
    reach inFunction (frame :: frames) = frame.inside (reach inFunction frames) := rfl

theorem reach_returns : (reach inFunction frames).returns = inFunction := by
  induction frames with
  | nil => rfl
  | cons frame rest ih =>
      rw [reach_cons]
      cases frame <;> exact ih

/-- Statements do not stand in values. -/
theorem reach_valued : (reach inFunction frames).valued = false := by
  induction frames with
  | nil => rfl
  | cons frame rest ih =>
      rw [reach_cons]
      cases frame <;> exact ih

theorem breaks_of_mem (h : frame ∈ frames) (hframe : frame = .loop ∨ frame = .switch) :
    (reach inFunction frames).breaks := by
  induction frames with
  | nil => cases h
  | cons first rest ih =>
      rw [reach_cons]
      rcases List.mem_cons.mp h with rfl | hrest
      · rcases hframe with rfl | rfl <;> rfl
      · cases first with
        | loop | switch => rfl
        | label | other => exact ih hrest

theorem continues_of_mem (h : .loop ∈ frames) : (reach inFunction frames).continues := by
  induction frames with
  | nil => cases h
  | cons first rest ih =>
      rw [reach_cons]
      cases first with
      | loop => rfl
      | switch | label | other => exact ih (by simpa using h)

theorem mem_labels : name ∈ (reach inFunction frames).labels ↔ .label name ∈ frames := by
  induction frames with
  | nil => exact iff_of_false nofun nofun
  | cons first rest ih =>
      rw [reach_cons]
      cases first <;> simp [Frame.inside, Reach.idle, ih]

/-- The labels up to one with a name are labels of what is inside. -/
theorem mem_own (h : .label name ∈ frames)
    (hlabels : ∀ f ∈ frames.takeWhile (· ≠ .label name), f.isLabel) :
    name ∈ (reach inFunction frames).own := by
  induction frames with
  | nil => cases h
  | cons first rest ih =>
      by_cases hfirst : first = .label name
      · subst hfirst
        exact List.mem_cons_self
      · rw [List.takeWhile_cons_of_pos (by simpa using hfirst), List.forall_mem_cons] at hlabels
        have hrest : Frame.label name ∈ rest := (List.mem_cons.mp h).resolve_left (Ne.symm hfirst)
        cases first with
        | label other => exact List.mem_cons_of_mem _ (ih hrest hlabels.2)
        | loop | switch | other => cases hlabels.1

/-- A loop right inside a label has that label. -/
theorem mem_loops (h : .label name ∈ frames)
    (hloop : (frames.takeWhile (· ≠ .label name)).reverse.find? (fun f => !f.isLabel) =
      some .loop) : name ∈ (reach inFunction frames).loops := by
  induction frames with
  | nil => cases h
  | cons first rest ih =>
      by_cases hfirst : first = .label name
      · simp [hfirst] at hloop
      · have hrest : Frame.label name ∈ rest := (List.mem_cons.mp h).resolve_left (Ne.symm hfirst)
        rw [List.takeWhile_cons_of_pos (by simpa using hfirst), List.reverse_cons,
          List.find?_append, Option.or_eq_some_iff] at hloop
        rw [reach_cons]
        rcases hloop with hloop | ⟨hnone, hlast⟩
        · -- The loop is further out, and stays around.
          have hmem := ih hrest hloop
          cases first with
          | loop => exact List.mem_append_right _ hmem
          | switch | label | other => exact hmem
        · -- Nothing but labels is between this construct and the label.
          obtain rfl : first = .loop := by
            rw [List.find?_singleton] at hlast
            split at hlast
            · exact Option.some_inj.mp hlast
            · cases hlast
          refine List.mem_append_left _ (mem_own hrest fun f hf => ?_)
          have := List.find?_eq_none.mp hnone f (List.mem_reverse.mpr hf)
          simpa using this

/-- A jump without a fault is allowed. -/
theorem fitsIn_of_jumpFault? {isContinue : Bool} {label : Option String} {head : Head}
    (h : jumpFault? frames isContinue label = none)
    (hkind : head.kind = if isContinue then .continueStmt else .breakStmt)
    (htext : head.text? = label) : head.FitsIn (reach inFunction frames) := by
  cases label with
  | none =>
      rw [jumpFault?] at h
      split at h
      case isFalse => split at h <;> cases h
      case isTrue htarget =>
          simp only [List.contains_iff_mem] at htarget
          cases isContinue with
          | true =>
              have hloop : Frame.loop ∈ frames := by simpa using htarget
              constructor <;> simp_all [continues_of_mem, Kind.isUnvalued]
          | false =>
              have hbreaks : (reach inFunction frames).breaks := by
                rcases htarget with hloop | ⟨-, hswitch⟩
                · exact breaks_of_mem hloop (.inl rfl)
                · exact breaks_of_mem hswitch (.inr rfl)
              constructor <;> simp_all [Kind.isUnvalued]
  | some name =>
      rw [jumpFault?] at h
      split at h
      case isTrue => cases h
      case isFalse hlabel =>
          have hmem : Frame.label name ∈ frames := by simpa using hlabel
          dsimp only at h
          split at h
          case isTrue => cases h
          case isFalse hloop =>
              cases isContinue with
              | true =>
                  have hloops : name ∈ (reach inFunction frames).loops :=
                    mem_loops hmem (by simpa using hloop)
                  constructor <;> simp_all [Kind.isUnvalued]
              | false => constructor <;> simp_all [mem_labels, Kind.isUnvalued]

/-! ### Expressions -/

/-- A tree is allowed anywhere, perhaps only in functions. -/
def Floats (inFunction : Bool) (t : Tree) : Prop :=
  ∀ X : Reach, (inFunction → X.returns) → t.Fits X

/-- A tree stands for a value and is allowed anywhere. -/
structure Valued (inFunction : Bool) (t : Tree) : Prop where
  expression : t.head.isExpression
  floats : Floats inFunction t

variable {head head' : Head} {children : List Tree} {t : Tree} {role : Role} {span : Span}

theorem returns_inside (h : X.returns) : (X.inside head).returns := by
  rw [Reach.inside]
  split
  · exact h
  · split <;> first | exact h | rfl

theorem returns_around {c : Head} (h : X.returns) : (X.around head c).returns := by
  rw [Reach.around]
  split <;> exact returns_inside h

/-- Spans, roles and marks do not matter for where a tree is allowed. -/
theorem fits_of_head (h : (Tree.node head children).Fits X) (hkind : head'.kind = head.kind)
    (hpayload : head'.payload = head.payload) : (Tree.node head' children).Fits X := by
  cases h with
  | node fits admits below =>
      have htext : head'.text = head.text := by
        rw [Head.text, Head.text, Head.text?, Head.text?, hpayload]
      refine .node (fits.congr hkind fun _ => hpayload) (fun c hc => (admits c hc).congr hkind) ?_
      intro c hc
      rw [Reach.around_congr hkind (fun _ => htext) rfl]
      exact below c hc

theorem fits_withRole (h : t.Fits X) : (t.withRole role).Fits X := by
  cases t with
  | node head children => exact fits_of_head h rfl rfl

theorem Floats.withRole (h : Floats inFunction t) : Floats inFunction (t.withRole role) :=
  fun X hX => fits_withRole (h X hX)

theorem Valued.withRole (h : Valued inFunction t) : Valued inFunction (t.withRole role) :=
  ⟨by rw [head_withRole]; exact h.expression, h.floats.withRole⟩

theorem Valued.parenthesize (h : Valued inFunction t) : Valued inFunction t.parenthesize := by
  cases t with
  | node head children => exact ⟨h.expression, fun X hX => fits_of_head (h.floats X hX) rfl rfl⟩

theorem floats_node (hbound : head.kind.isBound = false)
    (hadmits : ∀ c ∈ children, head.Admits c.head)
    (hchildren : ∀ c ∈ children, Floats inFunction c) : Floats inFunction (.node head children) :=
  fun _ hX => .node (Head.fitsIn_of_not_isBound hbound) hadmits fun c hc =>
    hchildren c hc _ fun hin => returns_around (hX hin)

theorem isExpression_of_isOperation (h : head.kind.isOperation) : head.isExpression := by
  rw [Head.isExpression, Bool.or_eq_true]
  refine .inl ?_
  cases hkind : head.kind <;> simp_all [Kind.isOperation, Kind.isStatement]

theorem valued_node (hkind : head.kind.isOperation) (hbound : head.kind.isBound = false)
    (hchildren : ∀ c ∈ children, Valued inFunction c) : Valued inFunction (.node head children) :=
  ⟨isExpression_of_isOperation hkind,
    floats_node hbound (fun c hc => Head.admits_of_isOperation hkind (hchildren c hc).expression)
      fun c hc => (hchildren c hc).floats⟩

theorem valued_leaf (hkind : head.kind.isOperation) (hbound : head.kind.isBound = false) :
    Valued inFunction (.node head []) :=
  valued_node hkind hbound nofun

/-! ### Parts of statements -/

/-- A child of a node is allowed there and admitted by the node. -/
def Part (p : Head) (X : Reach) (c : Tree) : Prop := p.Admits c.head ∧ c.Fits (X.around p c.head)

/-- A child of a node is allowed anywhere and admitted by the node. -/
def FloatingPart (p : Head) (inFunction : Bool) (c : Tree) : Prop :=
  p.Admits c.head ∧ Floats inFunction c

theorem fits_of_parts (hfits : head.FitsIn X) (h : ∀ c ∈ children, Part head X c) :
    (Tree.node head children).Fits X :=
  .node hfits (fun c hc => (h c hc).1) fun c hc => (h c hc).2

theorem floats_of_parts (hbound : head.kind.isBound = false)
    (h : ∀ c ∈ children, FloatingPart head inFunction c) :
    Floats inFunction (.node head children) :=
  floats_node hbound (fun c hc => (h c hc).1) fun c hc => (h c hc).2

theorem FloatingPart.part (h : FloatingPart head inFunction t) (hX : inFunction → X.returns) :
    Part head X t :=
  ⟨h.1, h.2 _ fun hin => returns_around (hX hin)⟩

theorem admits_withRole (hkind : head.kind.isPlain)
    (h : role.isExpression → t.head.isExpression) : head.Admits (t.withRole role).head := by
  rw [head_withRole]
  refine Head.admits_of_isPlain hkind fun other hrole hexpression => h ?_
  rwa [Option.some_inj.mp hrole]

theorem admits_bare (hkind : head.kind.isPlain) (h : t.head.role = none) : head.Admits t.head := by
  refine Head.admits_of_isPlain hkind fun other hrole => ?_
  rw [h] at hrole
  cases hrole

/-- The children of a statement stand for values in roles of values only. -/
theorem part_of_fits (hkind : head.kind.isPlain)
    (hrole : ∀ role, t.head.role = some role → role.isExpression = false)
    (ht : t.Fits (X.inside head)) : Part head X t := by
  refine ⟨Head.admits_of_isPlain hkind fun role hsome hexpression => ?_, ?_⟩
  · rw [hrole role hsome] at hexpression
    cases hexpression
  · rw [Reach.around_of_not_values]
    · exact ht
    · simp only [Kind.isPlain, Bool.and_eq_true, Bool.not_eq_true'] at hkind
      rw [Head.values, hkind.1.1.1, Bool.false_or, Option.any_eq_false]
      exact fun role hsome => Bool.not_eq_true _ ▸ hrole role hsome

/-- A child without a role of a statement. -/
theorem part_of_bare (hkind : head.kind.isPlain) (hrole : t.head.role = none)
    (ht : t.Fits (X.inside head)) : Part head X t :=
  part_of_fits hkind (by simp [hrole]) ht

/-- An expression in a role of a statement. -/
theorem Valued.part (h : Valued inFunction t) (hkind : head.kind.isPlain) :
    FloatingPart head inFunction (t.withRole role) :=
  ⟨admits_withRole hkind fun _ => h.expression, h.floats.withRole⟩

/-- What the productions that contain each other ensure. -/
structure Places (grammar : Self) : Prop where
  statement : ∀ e, Ensures e (grammar .statement) fun t => t.head.role = none ∧ t.Fits e.reach
  value : ∀ e symbol, symbol ≠ .statement → Ensures e (grammar symbol) (Valued e.inFunction)

/-- Several trees stand for values and are allowed anywhere. -/
def AreValued (inFunction : Bool) (ts : List Tree) : Prop := ∀ t ∈ ts, Valued inFunction t

variable {ts : List Tree}

theorem AreValued.cons (h : Valued inFunction t) (hts : AreValued inFunction ts) :
    AreValued inFunction (t :: ts) :=
  List.forall_mem_cons.mpr ⟨h, hts⟩

theorem AreValued.reverse (h : AreValued inFunction ts) : AreValued inFunction ts.reverse :=
  fun t ht => h t (List.mem_reverse.mp ht)

theorem areValued_nil : AreValued inFunction [] := nofun

theorem isOperation_of_binaryOperator? {kind : TokenKind} {level : Nat} {op : Kind}
    (h : binaryOperator? kind = some (level, op)) : op.isOperation ∧ op.isBound = false := by
  have hop := isBinary_of_binaryOperator? h
  cases op <;> first | exact ⟨rfl, rfl⟩ | cases hop

theorem isOperation_of_unaryOperator? {kind : TokenKind} {op : Kind}
    (h : unaryOperator? kind = some op) : op.isOperation ∧ op.isBound = false := by
  have hop := isUnary_of_unaryOperator? h
  cases op <;> first | exact ⟨rfl, rfl⟩ | cases hop

theorem isOperation_of_updateOperator? {kind : TokenKind} {op : Kind}
    (h : updateOperator? kind = some op) : op.isOperation ∧ op.isBound = false := by
  rcases eq_of_updateOperator? h with rfl | rfl <;> exact ⟨rfl, rfl⟩

theorem valued_ofList {kind : Kind} (hkind : kind.isOperation) (hbound : kind.isBound = false)
    (h : AreValued inFunction ts) : Valued inFunction (.ofList kind span ts) :=
  valued_node hkind hbound h

section Expressions

variable {self : Self} (h : Places self) (e : Surroundings)
include h

theorem valued_assignmentBelow : Ensures e (self .assignment) (Valued e.inFunction) :=
  h.value e .assignment nofun

theorem valued_commaTurn (hts : AreValued e.inFunction ts) : Ensures e (commaTurn self ts)
    (Turn.Keeps (AreValued e.inFunction) (AreValued e.inFunction)) := by
  refine .next fun more => .ite (fun _ => ?_) fun _ => .pure hts.reverse
  exact .bind (valued_assignmentBelow h e) fun part hpart => .pure (hts.cons hpart)

theorem valued_expression : Ensures e (expression self) (Valued e.inFunction) := by
  refine .next fun start => .bind (valued_assignmentBelow h e) fun first hfirst => ?_
  refine .next fun following => .ite (fun _ => ?_) fun _ => .pure hfirst
  refine .bind (.loop (areValued_nil.cons hfirst) fun _ => valued_commaTurn h e) fun ts hts => ?_
  exact .next fun span => .pure (valued_ofList rfl rfl hts)

theorem valued_parenExpression : Ensures e (parenExpression self) (Valued e.inFunction) := by
  refine .next fun _ => .bind (.withReader (valued_expression h _)) fun inner hinner => ?_
  exact .next fun _ => .pure hinner

omit h in
theorem valued_binaryTurn {operand : Production Tree} {left : Tree} {tighter : Nat} {start : Span}
    (hoperand : Ensures e operand (Valued e.inFunction)) (hleft : Valued e.inFunction left) :
    Ensures e (binaryTurn operand tighter start left)
      (Turn.Keeps (Valued e.inFunction) (Valued e.inFunction)) := by
  refine .next fun token => ?_
  split
  case h_2 => exact .pure hleft
  case h_1 level op hop =>
      obtain ⟨hkind, hbound⟩ := isOperation_of_binaryOperator? hop
      refine .read_bind (.ite (fun _ => ?_) fun _ => .pure hleft)
      refine .next fun _ => .bind hoperand fun right hright => .next fun span => .pure ?_
      exact valued_ofList hkind hbound ((areValued_nil.cons hright).cons hleft)

theorem valued_binary (n : Nat) : Ensures e (binary self n) (Valued e.inFunction) := by
  induction n with
  | zero => exact h.value e .unary nofun
  | succ n ih =>
      refine .next fun start => .bind ih fun first hfirst => ?_
      exact .loop hfirst fun left hleft => valued_binaryTurn e ih hleft

theorem valued_conditional : Ensures e (conditional self) (Valued e.inFunction) := by
  refine .next fun start => .bind (valued_binary h e _) fun condition hcondition => ?_
  refine .next fun more => .ite (fun _ => ?_) fun _ => .pure hcondition
  refine .bind (.withReader (valued_assignmentBelow h _)) fun thenPart hthen => .next fun _ => ?_
  refine .bind (valued_assignmentBelow h e) fun elsePart helse => .next fun span => .pure ?_
  exact valued_ofList rfl rfl (((areValued_nil.cons helse).cons hthen).cons hcondition)

theorem valued_yieldExpression : Ensures e (yieldExpression self) (Valued e.inFunction) := by
  refine .next fun token => .read_bind (.ite (fun hin => ?_) fun _ => .reject_bind)
  have hyield : ∀ span ts, AreValued e.inFunction ts →
      Valued e.inFunction (.ofList .yieldOf span ts) := by
    intro span ts hts
    refine ⟨rfl, fun X hX => .node ?_ (fun c hc => ?_) fun c hc => ?_⟩
    · exact ⟨nofun, nofun, nofun, nofun, nofun, fun _ => hX hin, nofun⟩
    · exact Head.admits_of_isOperation rfl (hts c hc).expression
    · exact (hts c hc).floats _ fun hin => returns_around (hX hin)
  refine .next fun following => ?_
  dsimp only
  refine .ite (fun _ => ?_) fun _ => ?_
  · exact .pure_bind (.next fun span => .pure (hyield _ _ areValued_nil))
  · refine .bind (valued_assignmentBelow h e) fun value hvalue => ?_
    exact .pure_bind (.next fun span => .pure (hyield _ _ (areValued_nil.cons hvalue)))

theorem valued_assignment : Ensures e (assignment self) (Valued e.inFunction) := by
  refine .next fun first => .ite (fun _ => ?_) fun _ => ?_
  · exact valued_yieldExpression h e
  · refine .bind (valued_conditional h e) fun target htarget => .next fun token => ?_
    refine .ite (fun _ => ?_) fun _ => .pure htarget
    refine .next fun _ => .ite (fun _ => ?_) fun _ => .reject_bind
    refine .bind (valued_assignmentBelow h e) fun value hvalue => .next fun span => .pure ?_
    exact valued_node rfl rfl ((areValued_nil.cons hvalue).cons htarget)

theorem valued_unary : Ensures e (unary self) (Valued e.inFunction) := by
  have hoperand : Ensures e (self .unary) (Valued e.inFunction) := h.value e .unary nofun
  refine .next fun token => ?_
  split
  case h_1 op hop =>
      obtain ⟨hkind, hbound⟩ := isOperation_of_unaryOperator? hop
      refine .bind hoperand fun operand hoperand => .next fun span => .pure ?_
      exact valued_ofList hkind hbound (areValued_nil.cons hoperand)
  case h_2 =>
      split
      case h_1 op hop =>
          obtain ⟨hkind, hbound⟩ := isOperation_of_updateOperator? hop
          refine .bind hoperand fun operand hoperand => .next fun _ => .next fun span => .pure ?_
          exact valued_ofList hkind hbound (areValued_nil.cons hoperand)
      case h_2 =>
          refine .next fun _ => .bind (h.value e (.member true) nofun) fun operand hoperand => ?_
          refine .next fun following => ?_
          split
          case h_2 => exact .pure hoperand
          case h_1 op hop =>
              obtain ⟨hkind, hbound⟩ := isOperation_of_updateOperator? hop
              refine .next fun _ => .next fun _ => .next fun span => .pure ?_
              exact valued_node hkind hbound (areValued_nil.cons hoperand)

/-! ### Patterns -/

omit h in
theorem valued_propertyKey (token : Token) :
    Ensures e (propertyKey token) (Valued e.inFunction) := by
  rw [propertyKey]
  split
  · exact .pure (valued_leaf rfl rfl)
  · exact .pure (valued_leaf rfl rfl)
  · split
    · exact .pure (valued_leaf rfl rfl)
    · exact .unexpected _ _

theorem valued_binding (wanted : Wanted) :
    Ensures e (binding self wanted) (Valued e.inFunction) := by
  have hpattern : Ensures e (self .pattern) (Valued e.inFunction) := h.value e .pattern nofun
  refine .next fun token => ?_
  split
  · exact hpattern
  · exact hpattern
  · exact .next fun _ => .pure (valued_leaf rfl rfl)
  · exact .unexpected _ _

/-- The elements of an array that are not left out stand for values. -/
def AreValuedElements (inFunction : Bool) (elements : List (Option Tree)) : Prop :=
  ∀ t, some t ∈ elements → Valued inFunction t

omit h in
theorem AreValuedElements.cons {element : Option Tree} {elements : List (Option Tree)}
    (helement : ∀ t ∈ element, Valued inFunction t) (h : AreValuedElements inFunction elements) :
    AreValuedElements inFunction (element :: elements) := by
  intro t ht
  rcases List.mem_cons.mp ht with heq | ht
  · exact helement t heq.symm
  · exact h t ht

omit h in
theorem AreValuedElements.reverse {elements : List (Option Tree)}
    (h : AreValuedElements inFunction elements) : AreValuedElements inFunction elements.reverse :=
  fun t ht => h t (List.mem_reverse.mp ht)

omit h in
theorem valued_arrayInit {elements : List (Option Tree)} (span : Span)
    (h : AreValuedElements inFunction elements) : Valued inFunction (.arrayInit elements span) := by
  refine valued_ofList rfl rfl fun t ht => ?_
  obtain ⟨element, helement, rfl⟩ := List.mem_map.mp ht
  cases element with
  | none => exact valued_leaf rfl rfl
  | some t => exact h t helement

theorem valued_arrayPatternElements :
    Ensures e (arrayPatternElements self) (AreValuedElements e.inFunction) := by
  refine .loop (I := AreValuedElements e.inFunction) nofun fun elements helements => ?_
  refine .next fun token => .ite (fun _ => ?_) fun _ => .ite (fun _ => ?_) fun _ => ?_
  · exact .next fun _ => .pure helements.reverse
  · exact .next fun _ => .pure (helements.cons nofun)
  · refine .bind (valued_binding h e _) fun element helement => .next fun after => ?_
    have hmore : AreValuedElements e.inFunction (some element :: elements) :=
      helements.cons (by rintro _ ⟨⟩; exact helement)
    refine .ite (fun _ => .pure hmore.reverse) fun _ => .ite (fun _ => .pure hmore) fun _ => ?_
    exact .unexpected _ _

theorem valued_propertyPattern (token : Token) :
    Ensures e (propertyPattern self token) (Valued e.inFunction) := by
  have hpair : ∀ {key value : Tree} {span : Span}, Valued e.inFunction key →
      Valued e.inFunction value → Valued e.inFunction (.ofList .propertyInit span [key, value]) :=
    fun hkey hvalue => valued_ofList rfl rfl ((areValued_nil.cons hvalue).cons hkey)
  have hkeyed : Ensures e (do
      let key ← propertyKey token
      let _ ← expect .colon
      let value ← binding self .variableName
      return .ofList .propertyInit (← spanFrom token.span) [key, value])
      (Valued e.inFunction) := by
    refine .bind (valued_propertyKey e token) fun key hkey => .next fun _ => ?_
    refine .bind (valued_binding h e _) fun value hvalue => ?_
    exact .next fun _ => .pure (hpair hkey hvalue)
  rw [propertyPattern]
  split
  case h_1 name _ =>
      refine .next fun more => ?_
      dsimp only
      refine .ite (fun _ => ?_) fun _ => ?_
      · refine .bind (valued_binding h e _) fun value hvalue => ?_
        exact .next fun _ => .pure (hpair (valued_leaf rfl rfl) hvalue)
      · refine .pure_bind (.next fun _ => .pure ?_)
        exact hpair (valued_leaf rfl rfl) (valued_leaf rfl rfl)
  · exact hkeyed
  · exact hkeyed
  · exact hkeyed
  · exact .unexpected _ _

theorem valued_objectPatternProperties :
    Ensures e (objectPatternProperties self) (AreValued e.inFunction) := by
  refine .loop (I := AreValued e.inFunction) areValued_nil fun properties hproperties => ?_
  refine .next fun token => ?_
  refine .ite (fun _ => .pure hproperties.reverse) fun _ => ?_
  refine .bind (valued_propertyPattern h e token) fun property hproperty => .next fun after => ?_
  have hmore := hproperties.cons hproperty
  refine .ite (fun _ => .pure hmore.reverse) fun _ => .ite (fun _ => .pure hmore) fun _ => ?_
  exact .unexpected _ _

theorem valued_pattern : Ensures e (pattern self) (Valued e.inFunction) := by
  refine .next fun token => ?_
  split
  · refine .bind (valued_arrayPatternElements h e) fun elements helements => ?_
    exact .next fun span => .pure (valued_arrayInit _ helements)
  · refine .bind (valued_objectPatternProperties h e) fun properties hproperties => ?_
    exact .next fun span => .pure (valued_ofList rfl rfl hproperties)
  · exact .unexpected _ _

/-! ### Comprehensions, calls and arrays -/

/-- A clause of a comprehension is allowed anywhere. -/
theorem floats_comprehensionFor :
    Ensures e (comprehensionFor self) fun t => t.head.role = none ∧ Floats e.inFunction t := by
  refine .next fun s => .next fun each => .next fun _ => ?_
  refine .bind (valued_binding h e _) fun iterator hiterator => .next fun _ => ?_
  refine .bind (.withReader (valued_expression h _)) fun object hobject => .next fun _ => ?_
  refine .next fun span => .pure ⟨rfl, floats_of_parts rfl ?_⟩
  exact forall_mem_pair.mpr ⟨hiterator.part rfl, hobject.part rfl⟩

theorem valued_comprehensionTail : Ensures e (comprehensionTail self) (Valued e.inFunction) := by
  refine .next fun start => .bind (.loop
    (I := fun ts => ∀ t ∈ ts, t.head.role = none ∧ Floats e.inFunction t)
    (Q := fun ts => ∀ t ∈ ts, t.head.role = none ∧ Floats e.inFunction t) nofun ?_) ?_
  · intro clauses hclauses
    refine .next fun more => .ite (fun _ => ?_) fun _ => .pure ?_
    · refine .bind (floats_comprehensionFor h e) fun clause hclause => .pure ?_
      exact List.forall_mem_cons.mpr ⟨hclause, hclauses⟩
    · exact fun t ht => hclauses t (List.mem_reverse.mp ht)
  · intro clauses hclauses
    refine .next fun more => ?_
    dsimp only
    refine .ite_bind (fun _ => .optional (valued_parenExpression h e)) (fun _ => .pure nofun)
      fun guard hguard => .next fun span => .pure ⟨rfl, floats_of_parts rfl ?_⟩
    refine List.forall_mem_append.mpr ⟨fun t ht => ?_, ?_⟩
    · exact ⟨admits_bare rfl (hclauses t ht).1, (hclauses t ht).2⟩
    · exact forall_mem_part fun t ht => (hguard t ht).part rfl

omit h in
theorem valued_comprehension {kind : Kind} {value tail : Tree} (hkind : kind.isOperation)
    (hbound : kind.isBound = false) (hvalue : Valued inFunction value)
    (htail : Valued inFunction tail) : Valued inFunction (comprehension kind value tail span) :=
  valued_ofList hkind hbound ((areValued_nil.cons htail.withRole).cons hvalue.withRole)

theorem valued_argumentTurn (hts : AreValued e.inFunction ts) : Ensures e (argumentTurn self ts)
    (Turn.Keeps (AreValued e.inFunction) (AreValued e.inFunction)) := by
  have hrest : ∀ argument, Valued e.inFunction argument → Ensures e (do
      if ← accept .comma then return .again (argument :: ts)
      return .done (argument :: ts).reverse)
      (Turn.Keeps (AreValued e.inFunction) (AreValued e.inFunction)) := by
    intro argument hargument
    refine .next fun more => .ite (fun _ => .pure ?_) fun _ => .pure ?_
    · exact hts.cons hargument
    · exact (hts.cons hargument).reverse
  refine .next fun start => .bind (valued_assignmentBelow h e) fun value hvalue => ?_
  refine .next fun following => ?_
  dsimp only
  refine .ite (fun _ => ?_) fun _ => .pure_bind (hrest _ hvalue)
  refine .bind (valued_comprehensionTail h e) fun tail htail => .next fun span => ?_
  refine .ite (fun _ => ?_) fun _ => .reject_bind
  refine .next fun closing => .ite (fun _ => ?_) fun _ => .reject_bind
  exact .pure_bind (hrest _ (valued_comprehension rfl rfl hvalue htail))

theorem valued_arguments : Ensures e (arguments self) (AreValued e.inFunction) := by
  refine .withReader (.next fun closed => .ite (fun _ => .pure areValued_nil) fun _ => ?_)
  refine .bind (.loop areValued_nil fun _ => valued_argumentTurn h _) fun args hargs => ?_
  exact .next fun _ => .pure hargs

theorem valued_suffixTurn {calls : Bool} {start : Span} {object : Tree}
    (hobject : Valued e.inFunction object) : Ensures e (suffixTurn self calls start object)
      (Turn.Keeps (Valued e.inFunction) (Valued e.inFunction)) := by
  refine .next fun token => ?_
  split
  · refine .next fun nameToken => ?_
    split
    · refine .next fun span => .pure (valued_ofList rfl rfl ?_)
      exact (areValued_nil.cons (valued_leaf rfl rfl)).cons hobject
    · exact .unexpected _ _
  · refine .bind (.withReader (valued_expression h _)) fun index hindex => .next fun _ => ?_
    exact .next fun span => .pure (valued_ofList rfl rfl ((areValued_nil.cons hindex).cons hobject))
  · refine .ite (fun _ => ?_) fun _ => .next fun _ => .pure hobject
    refine .bind (valued_arguments h e) fun args hargs => .next fun span => .pure ?_
    exact valued_ofList rfl rfl ((areValued_nil.cons (valued_ofList rfl rfl hargs)).cons hobject)
  · exact .next fun _ => .pure hobject

theorem valued_memberSuffixes {calls : Bool} {start : Span} {first : Tree}
    (hfirst : Valued e.inFunction first) :
    Ensures e (memberSuffixes self calls start first) (Valued e.inFunction) :=
  .loop hfirst fun _ => valued_suffixTurn h e

/-- What stands in the brackets of an array are values. -/
def AreValuedIn (inFunction : Bool) : Elements → Prop
  | .inl elements => AreValuedElements inFunction elements
  | .inr (value, tail) => Valued inFunction value ∧ Valued inFunction tail

theorem valued_elementTurn {elements : List (Option Tree)}
    (helements : AreValuedElements e.inFunction elements) : Ensures e (elementTurn self elements)
      (Turn.Keeps (AreValuedElements e.inFunction) (AreValuedIn e.inFunction)) := by
  refine .next fun token => .ite (fun _ => ?_) fun _ => .ite (fun _ => ?_) fun _ => ?_
  · exact .next fun _ => .pure helements.reverse
  · exact .next fun _ => .pure (helements.cons nofun)
  · refine .bind (valued_assignmentBelow h e) fun element helement => ?_
    have hmore : AreValuedElements e.inFunction (some element :: elements) :=
      helements.cons (by rintro _ ⟨⟩; exact helement)
    have hrest : Ensures e (do
        let after ← next false
        if after.isPunctuator .closeBracket then
          return .done (.inl (some element :: elements).reverse)
        if after.isPunctuator .comma then return .again (some element :: elements)
        unexpected .commaOrBracket after)
        (Turn.Keeps (AreValuedElements e.inFunction) (AreValuedIn e.inFunction)) := by
      refine .next fun after => .ite (fun _ => .pure hmore.reverse) fun _ => ?_
      exact .ite (fun _ => .pure hmore) fun _ => .unexpected _ _
    dsimp only
    refine .ite (fun _ => .next fun following => .ite (fun _ => ?_) fun _ => hrest) fun _ => hrest
    refine .bind (valued_comprehensionTail h e) fun tail htail => .next fun _ => .pure ?_
    exact ⟨helement, htail⟩

theorem valued_arrayLiteral (start : Span) :
    Ensures e (arrayLiteral self start) (Valued e.inFunction) := by
  refine .bind (.loop (I := AreValuedElements e.inFunction) nofun fun _ => valued_elementTurn h e)
    fun elements helements => ?_
  split
  · exact .next fun span => .pure (valued_arrayInit _ helements)
  · exact .next fun span => .pure (valued_comprehension rfl rfl helements.1 helements.2)

theorem valued_parenthesized (start : Span) :
    Ensures e (parenthesized self start) (Valued e.inFunction) := by
  refine .bind (valued_expression h e) fun value hvalue => .next fun following => ?_
  dsimp only
  refine .ite (fun _ => ?_) fun _ => .pure_bind (.next fun _ => .pure hvalue.parenthesize)
  refine .bind (valued_comprehensionTail h e) fun tail htail => .next fun span => ?_
  exact .pure_bind (.next fun _ => .pure (valued_comprehension rfl rfl hvalue htail).parenthesize)

/-! ### Declarations -/

/-- A declaration is allowed anywhere. -/
structure IsDeclaration (inFunction : Bool) (t : Tree) : Prop where
  role : t.head.role = none
  kind : t.head.kind = .declaration
  floats : Floats inFunction t

omit h in
theorem isDeclaration_node {payload : Payload}
    (hchildren : ∀ t ∈ children, ∃ role value, t = Tree.withRole role value ∧
      Valued inFunction value) :
    IsDeclaration inFunction (.node { kind := .declaration, span, payload } children) := by
  refine ⟨rfl, rfl, floats_of_parts rfl fun t ht => ?_⟩
  obtain ⟨role, value, rfl, hvalue⟩ := hchildren t ht
  exact hvalue.part rfl

theorem isDeclaration_declaration (check : Bool) :
    Ensures e (declaration self check) fun result => IsDeclaration e.inFunction result.1 := by
  -- What is done once the name or pattern is read.
  have hrest : ∀ {payload : Payload} {names : List String} {target : List Tree} {token : Token},
      (∀ t ∈ target, ∃ role value, t = Tree.withRole role value ∧ Valued e.inFunction value) →
      Ensures e (do
        if check ∧ (← read).frames.isEmpty then checkRedeclaration names token.span.line
        let initializer ←
          if ← acceptPlainAssign then do pure [(← self .assignment).withRole .initializer]
          else pure []
        let span ← spanFrom token.span
        return (Tree.node { kind := .declaration, span, payload } (target ++ initializer),
          initializer.isEmpty && !target.isEmpty))
        fun result => IsDeclaration e.inFunction result.1 := by
    intro payload names target token htarget
    refine .read_bind (.ite (fun _ => .next fun _ => ?_) fun _ => ?_)
    all_goals
      refine .next fun initialized => .ite (fun _ => ?_) fun _ => ?_
      · refine .bind (valued_assignmentBelow h e) fun value hvalue => .pure_bind ?_
        refine .next fun span => .pure (isDeclaration_node ?_)
        refine List.forall_mem_append.mpr ⟨htarget, ?_⟩
        exact List.forall_mem_singleton.mpr ⟨.initializer, value, rfl, hvalue⟩
      · refine .pure_bind (.next fun span => .pure (isDeclaration_node ?_))
        exact List.forall_mem_append.mpr ⟨htarget, nofun⟩
  have hpattern : Ensures e (self .pattern) (Valued e.inFunction) := h.value e .pattern nofun
  refine .next fun token => ?_
  dsimp only
  split
  · exact .pure_bind (hrest nofun)
  · refine .next fun _ => .bind hpattern fun target htarget => .pure_bind (hrest ?_)
    exact List.forall_mem_singleton.mpr ⟨.names, target, rfl, htarget⟩
  · refine .next fun _ => .bind hpattern fun target htarget => .pure_bind (hrest ?_)
    exact List.forall_mem_singleton.mpr ⟨.names, target, rfl, htarget⟩
  · exact .unexpected_bind

/-- A tree without a role that is allowed anywhere, but variables are not declared in values. -/
structure Loose (inFunction : Bool) (t : Tree) : Prop where
  role : t.head.role = none
  fits : ∀ X : Reach, (inFunction → X.returns) → (t.head.kind = .varList → X.valued = false) →
    t.Fits X

omit h in
theorem Loose.floats (h : Loose inFunction t) (hkind : t.head.kind ≠ .varList) :
    Floats inFunction t :=
  fun X hX => h.fits X hX fun heq => absurd heq hkind

theorem loose_declarations (start : Span) {kind : Kind} (hkind : kind.isDeclarationList)
    (check : Bool) : Ensures e (declarations self start kind check) fun list =>
      Loose e.inFunction list.tree ∧ list.tree.head.kind = kind := by
  refine .bind (.loop (I := fun state => ∀ t ∈ state.1, IsDeclaration e.inFunction t)
    (Q := fun result => ∀ t ∈ result.1, IsDeclaration e.inFunction t) nofun ?_) ?_
  · rintro ⟨trees, openPattern⟩ htrees
    refine .bind (isDeclaration_declaration h e _) fun result hresult => ?_
    have hmore := List.forall_mem_cons.mpr ⟨hresult, htrees⟩
    refine .next fun more => .ite (fun _ => .pure hmore) fun _ => .pure ?_
    exact fun t ht => hmore t (List.mem_reverse.mp ht)
  · rintro ⟨trees, openPattern⟩ htrees
    refine .next fun span => .pure ⟨⟨rfl, fun X hX hvalued => fits_of_parts ?_ fun t ht => ?_⟩, rfl⟩
    · refine Head.fitsIn_of_isUnvalued ?_ fun hunvalued => hvalued ?_
      all_goals
        cases kind <;> simp_all [Kind.isDeclarationList, Kind.isBound, Kind.isUnvalued, Tree.ofList,
          Tree.head]
    · refine ⟨Head.admits_of_isDeclarationList hkind (htrees t ht).kind (htrees t ht).role, ?_⟩
      exact (htrees t ht).floats _ fun hin => returns_around (hX hin)

theorem floats_letHead (start : Span) :
    Ensures e (letHead self start) fun t => t.head.role = none ∧ Floats e.inFunction t := by
  refine .next fun _ => .bind (.withReader (loose_declarations h _ start rfl false)) ?_
  rintro list ⟨hlist, hkind⟩
  refine .ite (fun _ => .reject_bind) fun _ => .next fun _ => .pure ⟨hlist.role, hlist.floats ?_⟩
  simp [hkind]

/-! ### Functions -/

/-- Statements are allowed where they are read. -/
def AreStatements (e : Surroundings) (ts : List Tree) : Prop :=
  ∀ t ∈ ts, t.head.role = none ∧ t.Fits e.reach

theorem areStatements_statementsToBrace :
    Ensures e (statementsToBrace self) (AreStatements e) := by
  refine .loop (I := AreStatements e) nofun fun statements hstatements => .next fun token => ?_
  refine .ite (fun _ => .next fun _ => .pure ?_) fun _ => .ite (fun _ => .reject_bind) fun _ => ?_
  · exact fun t ht => hstatements t (List.mem_reverse.mp ht)
  · refine .bind (h.statement e) fun statement hstatement => .pure ?_
    exact List.forall_mem_cons.mpr ⟨hstatement, hstatements⟩

omit h in
/-- A list of statements is allowed where its statements are. -/
theorem fits_of_areStatements {kind : Kind} (hkind : kind.isStatementList)
    (h : AreStatements e ts) (hX : X.idle = e.reach) : (Tree.ofList kind span ts).Fits X := by
  have hvalued : X.valued = false := (congrArg Reach.valued hX).trans reach_valued
  refine fits_of_parts ?_ fun t ht => part_of_bare ?_ (h t ht).1 ?_
  · refine Head.fitsIn_of_isUnvalued ?_ fun _ => hvalued
    cases kind <;> simp_all [Kind.isStatementList, Kind.isBound, Kind.isUnvalued]
  · cases kind <;> first | rfl | cases hkind
  · rw [Reach.inside_of_isNeutral (by cases kind <;> first | rfl | cases hkind)]
    exact hX ▸ (h t ht).2

theorem areValued_parameters : Ensures e (parameters self) (AreValued e.inFunction) := by
  refine .next fun closed => .ite (fun _ => .pure areValued_nil) fun _ => ?_
  refine .loop (I := AreValued e.inFunction) areValued_nil fun params hparams => ?_
  refine .bind (valued_binding h e _) fun param hparam => .next fun closed => ?_
  refine .ite (fun _ => .pure (hparams.cons hparam).reverse) fun _ => ?_
  exact .next fun _ => .pure (hparams.cons hparam)

theorem fits_functionBody (hframes : e.frames = []) (hin : e.inFunction = true) :
    Ensures e (functionBody self) fun result =>
      result.1.head.kind = .script ∧ result.1.Fits { returns := true } := by
  have hreach : e.reach = { returns := true } := by
    rw [Surroundings.reach, hframes, hin]
    rfl
  refine .next fun token => .ite (fun _ => ?_) fun _ => ?_
  · refine .next fun opening => .next fun s => ?_
    refine .bind (.withReader (areStatements_statementsToBrace h _)) fun ts hts => ?_
    exact .next fun span => .pure ⟨rfl, fits_of_areStatements _ rfl hts hreach.symm⟩
  · refine .bind (valued_assignmentBelow h e) fun value hvalue => .pure ⟨rfl, ?_⟩
    -- A bare expression is returned.
    refine fits_of_parts ⟨nofun, nofun, nofun, nofun, nofun, nofun, fun _ => rfl⟩ ?_
    refine List.forall_mem_singleton.mpr (part_of_bare rfl rfl (fits_of_parts ?_ ?_))
    · exact ⟨nofun, nofun, nofun, nofun, nofun, fun _ => rfl, nofun⟩
    · exact List.forall_mem_singleton.mpr ((hvalue.part rfl).part fun _ => rfl)

/-- A function is allowed anywhere. -/
structure IsFunction (form : FunctionForm) (inFunction : Bool) (t : Tree) : Prop
    extends Loose inFunction t where
  kind : t.head.kind = .function
  form : t.head.form = some form

omit h in
theorem IsFunction.valued (h : IsFunction .expressed inFunction t) : Valued inFunction t :=
  ⟨by simp [Head.isExpression, h.kind, h.form], h.floats (by simp [h.kind])⟩

theorem isFunction_functionRest (start : Span) (name : Option String) (form : FunctionForm)
    (accessor : Option Accessor) : Ensures e (functionRest self start name form accessor)
      (IsFunction form e.inFunction) := by
  refine .next fun _ => .bind (areValued_parameters h e) fun params hparams => ?_
  refine .bind (.withReader (fits_functionBody h _ rfl rfl)) fun result hresult => ?_
  obtain ⟨body, bareBody⟩ := result
  refine .next fun span => .pure ⟨⟨rfl, fun X _ _ => ?_⟩, rfl, rfl⟩
  have haround : ∀ {c : Head} {head : Head}, head.kind = .function → c.role = some .params ∨
      c.role = some .body → X.around head c = { returns := true } := by
    intro c head hkind hrole
    rw [Reach.around_of_not_values, Reach.inside, hkind]
    · rfl
    · rcases hrole with hrole | hrole <;> simp [Head.values, hkind, hrole, Kind.isOperation,
        Kind.isStatement, Role.isExpression]
  refine fits_of_parts (Head.fitsIn_of_not_isBound rfl) (forall_mem_pair.mpr ⟨⟨?_, ?_⟩, ?_, ?_⟩)
  · exact Head.admits_of_function rfl (.inl rfl) rfl (by simp [head_withRole])
  · rw [haround rfl (.inl rfl)]
    exact fits_withRole ((valued_ofList rfl rfl hparams).floats _ fun _ => rfl)
  · rw [head_withRole]
    exact Head.admits_of_function rfl (.inr hresult.1) rfl fun _ => hresult.1
  · rw [haround rfl (.inr (by rw [head_withRole]))]
    exact fits_withRole hresult.2

theorem isFunction_function (start : Span) (form : FunctionForm) (named : Bool) :
    Ensures e (function self start form named) (IsFunction form e.inFunction) := by
  have hrest : ∀ name, Ensures e (functionRest self start name form none)
      (IsFunction form e.inFunction) := fun name => isFunction_functionRest h e _ _ _ _
  refine .next fun token => ?_
  dsimp only
  split
  · refine .next fun _ => .pure_bind (.ite (fun _ => .reject_bind) fun _ => hrest _)
  · exact .pure_bind (.ite (fun _ => .reject_bind) fun _ => hrest _)

/-! ### Object literals and primary expressions -/

theorem valued_property (token : Token) :
    Ensures e (property self token) (Valued e.inFunction) := by
  refine .next fun following => ?_
  dsimp only
  split
  · refine .next fun _ => (isFunction_functionRest h e _ _ _ _).mono fun t ht => ht.valued
  · refine .bind (valued_propertyKey e token) fun key hkey => .next fun _ => ?_
    refine .bind (valued_assignmentBelow h e) fun value hvalue => .next fun span => .pure ?_
    exact valued_ofList rfl rfl ((areValued_nil.cons hvalue).cons hkey)

theorem valued_objectLiteral (start : Span) :
    Ensures e (objectLiteral self start) (Valued e.inFunction) := by
  refine .bind (.loop (I := AreValued e.inFunction) (Q := AreValued e.inFunction) areValued_nil ?_)
    fun properties hproperties => .next fun span => .pure (valued_ofList rfl rfl hproperties)
  intro properties hproperties
  refine .next fun token => .ite (fun _ => .pure hproperties.reverse) fun _ => ?_
  refine .bind (valued_property h e token) fun property hproperty => .next fun after => ?_
  have hmore := hproperties.cons hproperty
  refine .ite (fun _ => .pure hmore.reverse) fun _ => .ite (fun _ => .pure hmore) fun _ => ?_
  exact .unexpected _ _

omit h in
/-- A `let` in front of an expression or a block. -/
theorem bindings_part {list : Tree} (hlist : Floats inFunction list) :
    FloatingPart { kind := .letBlock, span } inFunction (list.withRole .bindings) :=
  ⟨admits_withRole rfl nofun, hlist.withRole⟩

omit h in
theorem valued_letBlock {list value : Tree} (hlist : Floats inFunction list)
    (hvalue : Valued inFunction value) : Valued inFunction
      (.ofList .letBlock span [list.withRole .bindings, value.withRole .expression]) :=
  ⟨rfl, floats_of_parts rfl (forall_mem_pair.mpr ⟨bindings_part hlist, hvalue.part rfl⟩)⟩

theorem valued_primary : Ensures e (primary self) (Valued e.inFunction) := by
  refine .next fun token => ?_
  dsimp only
  split
  · exact (isFunction_function h e _ _ _).mono fun t ht => ht.valued
  · exact .withReader (valued_arrayLiteral h _ _)
  · exact .withReader (valued_objectLiteral h _ _)
  · exact .withReader (valued_parenthesized h _ _)
  · refine .bind (floats_letHead h e _) fun list hlist => ?_
    refine .bind (valued_assignmentBelow h e) fun value hvalue => ?_
    exact .next fun span => .pure (valued_letBlock hlist.2 hvalue)
  all_goals first | exact .pure (valued_leaf rfl rfl) | exact .unexpected _ _

theorem valued_member (calls : Bool) : Ensures e (member self calls) (Valued e.inFunction) := by
  refine .next fun token => ?_
  dsimp only
  refine .ite (fun _ => ?_) fun _ => ?_
  · refine .bind (h.value e (.member false) nofun) fun callee hcallee => ?_
    refine .next fun called => .ite (fun _ => ?_) fun _ => ?_
    · refine .bind (valued_arguments h e) fun args hargs => .next fun span => .pure_bind ?_
      refine valued_memberSuffixes h e (valued_ofList rfl rfl ?_)
      exact (areValued_nil.cons (valued_ofList rfl rfl hargs)).cons hcallee
    · refine .next fun span => .pure_bind (valued_memberSuffixes h e ?_)
      exact valued_ofList rfl rfl (areValued_nil.cons hcallee)
  · refine .next fun _ => .bind (valued_primary h e) fun first hfirst => ?_
    exact valued_memberSuffixes h e hfirst

end Expressions

/-! ### Statements -/

section Statements

variable {self : Self} (h : Places self) (e : Surroundings)
include h

/-- A statement without a role that is allowed where it is read. -/
def IsStatement (e : Surroundings) (t : Tree) : Prop := t.head.role = none ∧ t.Fits e.reach

omit h in
theorem Loose.isStatement (ht : Loose e.inFunction t) : IsStatement e t :=
  ⟨ht.role, ht.fits _ (fun hin => reach_returns.trans hin) fun _ => reach_valued⟩

omit h in
/-- An expression in a role of a statement is allowed where the statement is. -/
theorem Valued.partOf (ht : Valued e.inFunction t) (hkind : head.kind.isPlain) :
    Part head e.reach (t.withRole role) :=
  (ht.part hkind).part fun hin => reach_returns.trans hin

omit h in
/-- A statement in a role of another one. -/
theorem part_of_statement (ht : t.Fits (X.inside head)) (hkind : head.kind.isPlain)
    (hrole : role.isExpression = false) : Part head X (t.withRole role) := by
  refine part_of_fits hkind (fun other hother => ?_) (fits_withRole ht)
  rw [head_withRole] at hother
  rwa [← Option.some_inj.mp hother]

theorem statementIn_spec (frame : Frame) : Ensures e (statementIn self frame) fun t =>
    t.head.role = none ∧ t.Fits (frame.inside e.reach) :=
  .withReader (h.statement _)

/-- A block is allowed wherever its statements are. -/
theorem fits_block (start : Span) : Ensures e (block self start) fun t =>
    t.head.role = none ∧ ∀ X : Reach, X.idle = e.reach.idle → t.Fits X := by
  refine .withReader (.bind (areStatements_statementsToBrace h _) fun ts hts => ?_)
  exact .next fun span => .pure ⟨rfl, fun X hX => fits_of_areStatements _ rfl hts hX⟩

theorem fits_bracedBlock : Ensures e (bracedBlock self) fun t =>
    t.head.role = none ∧ ∀ X : Reach, X.idle = e.reach.idle → t.Fits X :=
  .next fun _ => fits_block h e _

theorem isStatement_expressionStatement (start : Span) :
    Ensures e (expressionStatement self start) (IsStatement e) := by
  refine .bind (valued_expression h e) fun value hvalue => .next fun _ => .next fun span => ?_
  refine .pure ⟨rfl, fits_of_parts (Head.fitsIn_of_not_isBound rfl) ?_⟩
  exact List.forall_mem_singleton.mpr (hvalue.partOf e rfl)

theorem isStatement_ifStatement (start : Span) :
    Ensures e (ifStatement self start) (IsStatement e) := by
  refine .bind (valued_parenExpression h e) fun condition hcondition => ?_
  refine .bind (statementIn_spec h e .other) fun thenPart hthen => .next fun more => ?_
  dsimp only
  refine .ite_bind (fun _ => .optional (statementIn_spec h e .other)) (fun _ => .pure nofun)
    fun elsePart helse => .next fun span => .pure ⟨rfl, ?_⟩
  refine fits_of_parts (Head.fitsIn_of_not_isBound rfl) (List.forall_mem_append.mpr ⟨?_, ?_⟩)
  · exact forall_mem_pair.mpr ⟨hcondition.partOf e rfl, part_of_statement hthen.2 rfl rfl⟩
  · exact forall_mem_part fun t ht => part_of_statement (helse t ht).2 rfl rfl

theorem areStatements_clauseStatements :
    Ensures e (clauseStatements self) (AreStatements e) := by
  refine .loop (I := AreStatements e) nofun fun statements hstatements => .next fun token => ?_
  refine .ite (fun _ => .pure ?_) fun _ => .ite (fun _ => .reject_bind) fun _ => ?_
  · exact fun t ht => hstatements t (List.mem_reverse.mp ht)
  · refine .bind (h.statement e) fun statement hstatement => .pure ?_
    exact List.forall_mem_cons.mpr ⟨hstatement, hstatements⟩

/-- A clause is allowed right inside its `switch`, which leaves the statement no label. -/
theorem isStatement_clause (start : Span) {label : Option Tree}
    (hlabel : ∀ t ∈ label, Valued e.inFunction t) (hown : e.reach.own = []) :
    Ensures e (clause self start label) (IsStatement e) := by
  refine .next fun _ => .bind (areStatements_clauseStatements h e) fun ts hts => ?_
  refine .next fun span => ?_
  have hbody : ∀ {head : Head}, head.kind.isPlain → head.kind.isNeutral →
      Part head e.reach ((Tree.ofList .block span ts).withRole .statements) := by
    intro head hplain hneutral
    refine part_of_statement (fits_of_areStatements _ rfl hts ?_) hplain rfl
    rw [Reach.inside_of_isNeutral hneutral, Reach.idle_idle, Reach.idle_eq_self hown]
  dsimp only
  split
  case h_1 label =>
      refine .pure ⟨rfl, fits_of_parts (Head.fitsIn_of_not_isBound rfl) ?_⟩
      refine forall_mem_pair.mpr ⟨?_, ?_⟩
      · exact (hlabel label rfl).partOf e rfl
      · exact hbody rfl rfl
  case h_2 =>
      refine .pure ⟨rfl, fits_of_parts (Head.fitsIn_of_not_isBound rfl) ?_⟩
      exact List.forall_mem_singleton.mpr (hbody rfl rfl)

theorem isStatement_clauses (hown : e.reach.own = []) :
    Ensures e (clauses self) (AreStatements e) := by
  refine .loop (I := fun state => AreStatements e state.1) nofun ?_
  rintro ⟨clauses, hasDefault⟩ hclauses
  refine .next fun token => ?_
  split
  · exact .pure fun t ht => hclauses t (List.mem_reverse.mp ht)
  · refine .bind (valued_expression h e) fun label hlabel => ?_
    refine .bind (isStatement_clause h e _ (by rintro _ ⟨⟩; exact hlabel) hown) ?_
    intro clause hclause
    exact .pure (List.forall_mem_cons.mpr ⟨hclause, hclauses⟩)
  · refine .ite (fun _ => .reject_bind) fun _ => ?_
    refine .bind (isStatement_clause h e _ nofun hown) fun clause hclause => ?_
    exact .pure (List.forall_mem_cons.mpr ⟨hclause, hclauses⟩)
  · exact .unexpected _ _

theorem isStatement_switchStatement (start : Span) :
    Ensures e (switchStatement self start) (IsStatement e) := by
  refine .bind (valued_parenExpression h e) fun discriminant hdiscriminant => .next fun _ => ?_
  refine .bind (.withReader (isStatement_clauses h _ rfl)) fun clauses hclauses => ?_
  refine .next fun span => .pure ⟨rfl, fits_of_parts (Head.fitsIn_of_not_isBound rfl) ?_⟩
  refine List.forall_mem_cons.mpr ⟨hdiscriminant.partOf e rfl, fun t ht => ?_⟩
  exact part_of_bare rfl (hclauses t ht).1 (hclauses t ht).2

/-! ### Loops -/

/-- The first part of a `for` head is a list of declarations or an expression. -/
def IsSetup (e : Surroundings) (t : Tree) : Prop :=
  ∀ {head : Head} {role : Role}, head.kind.isPlain → head.kind.isLoop → role.isExpression = false →
    Part head e.reach (t.withRole role)

theorem isSetup_forSetup (token : Token) : Ensures e (forSetup self token) fun result =>
    IsSetup e result.1 := by
  refine .withReader ?_
  dsimp only
  have hlist : ∀ {kind : Kind}, kind.isDeclarationList → Ensures { e with noIn := true } (do
      let start := (← next true).span
      let list ← declarations self start kind false
      return (list.tree, some list)) fun result => IsSetup e result.1 := by
    intro kind hkind
    refine .next fun _ => .bind (loose_declarations h _ _ hkind false) fun list hlist => .pure ?_
    intro head role hplain hloop hrole
    refine part_of_statement (hlist.1.fits _ (fun hin => ?_) fun _ => ?_) hplain hrole
    · exact returns_inside (reach_returns.trans hin)
    · rw [Reach.inside_of_isLoop hloop]
      exact reach_valued
  split
  case h_1 kind hkind =>
      refine hlist ?_
      split at hkind
      all_goals
        cases hkind
        try rfl
  case h_2 =>
      refine .bind (valued_expression h _) fun value hvalue => .pure ?_
      exact fun hplain _ _ => (hvalue.part hplain).part fun hin => reach_returns.trans hin

theorem valued_optionalPart (ending : Punctuator) : Ensures e (optionalPart self ending) fun part =>
    ∀ t ∈ part, Valued e.inFunction t := by
  refine .next fun token => ?_
  dsimp only
  refine .ite_bind (fun _ => .pure nofun) (fun _ => .optional (valued_expression h e)) ?_
  exact fun part hpart => .next fun _ => .pure hpart

theorem isStatement_forStatement (start : Span) :
    Ensures e (forStatement self start) (IsStatement e) := by
  have hfor : ∀ {setup : Option Tree}, (∀ t ∈ setup, IsSetup e t) → Ensures e (do
      let _ ← expect .semicolon
      let condition ← optionalPart self .semicolon
      let update ← optionalPart self .closeParen
      let body ← statementIn self .loop
      return Tree.ofList .forLoop (← spanFrom start)
        (Tree.part .setup setup ++ Tree.part .condition condition ++ Tree.part .update update ++
          [body.withRole .body])) (IsStatement e) := by
    intro setup hsetup
    refine .next fun _ => .bind (valued_optionalPart h e _) fun condition hcondition => ?_
    refine .bind (valued_optionalPart h e _) fun update hupdate => ?_
    refine .bind (statementIn_spec h e .loop) fun body hbody => .next fun span => .pure ⟨rfl, ?_⟩
    refine fits_of_parts (Head.fitsIn_of_not_isBound rfl) ?_
    simp only [List.forall_mem_append, List.forall_mem_singleton]
    refine ⟨⟨⟨?_, ?_⟩, ?_⟩, part_of_statement hbody.2 rfl rfl⟩
    · exact forall_mem_part fun t ht => hsetup t ht rfl rfl rfl
    · exact forall_mem_part fun t ht => (hcondition t ht).partOf e rfl
    · exact forall_mem_part fun t ht => (hupdate t ht).partOf e rfl
  refine .next fun each => .next fun _ => .next fun token => ?_
  dsimp only
  refine .ite (fun _ => .pure_bind ?_) fun _ => ?_
  · refine .next fun isIn => .ite (fun _ => .reject_bind) fun _ => ?_
    exact .ite (fun _ => .reject_bind) fun _ => .ite (fun _ => .reject_bind) fun _ => hfor nofun
  · refine .bind (isSetup_forSetup h e token) fun result hresult => .pure_bind ?_
    refine .next fun isIn => .ite (fun _ => ?_) fun _ => .ite (fun _ => .reject_bind) fun _ => ?_
    · refine .next fun _ => .bind (valued_expression h e) fun object hobject => .next fun _ => ?_
      refine .bind (statementIn_spec h e .loop) fun body hbody => .next fun span => .pure ⟨rfl, ?_⟩
      refine fits_of_parts (Head.fitsIn_of_not_isBound rfl) (List.forall_mem_cons.mpr ⟨?_, ?_⟩)
      · exact hresult rfl rfl rfl
      · exact forall_mem_pair.mpr ⟨hobject.partOf e rfl, part_of_statement hbody.2 rfl rfl⟩
    · refine .ite (fun _ => .reject_bind) fun _ => hfor ?_
      rintro _ ⟨⟩
      exact hresult

theorem isStatement_whileStatement (start : Span) :
    Ensures e (whileStatement self start) (IsStatement e) := by
  refine .bind (valued_parenExpression h e) fun condition hcondition => ?_
  refine .bind (statementIn_spec h e .loop) fun body hbody => .next fun span => .pure ⟨rfl, ?_⟩
  refine fits_of_parts (Head.fitsIn_of_not_isBound rfl) (forall_mem_pair.mpr ⟨?_, ?_⟩)
  · exact hcondition.partOf e rfl
  · exact part_of_statement hbody.2 rfl rfl

theorem isStatement_doStatement (start : Span) :
    Ensures e (doStatement self start) (IsStatement e) := by
  refine .bind (statementIn_spec h e .loop) fun body hbody => .next fun _ => ?_
  refine .bind (valued_parenExpression h e) fun condition hcondition => .next fun _ => ?_
  refine .next fun span => .pure ⟨rfl, ?_⟩
  refine fits_of_parts (Head.fitsIn_of_not_isBound rfl) (forall_mem_pair.mpr ⟨?_, ?_⟩)
  · exact part_of_statement hbody.2 rfl rfl
  · exact hcondition.partOf e rfl

/-! ### Jumps and other statements -/

omit h in
/-- The part of a jump behind its label. -/
theorem isStatement_jump {start : Span} {isContinue : Bool} {label : Option String}
    {payload : Payload} (hpayload : ∀ kind span, Head.text? { kind, span, payload } = label) :
    Ensures e (do
      if let some cause := jumpFault? (← read).frames isContinue label then reject cause start.line
      endStatement
      let span ← spanFrom start
      let kind := if isContinue then .continueStmt else .breakStmt
      return Tree.node { kind, span, payload } []) (IsStatement e) := by
  refine .read_bind ?_
  cases hfault : jumpFault? e.frames isContinue label with
  | some cause => exact .reject_bind
  | none =>
      refine .next fun _ => .next fun span => .pure ⟨rfl, .node ?_ (by simp) (by simp)⟩
      exact fitsIn_of_jumpFault? hfault rfl (hpayload _ _)

omit h in
theorem isStatement_jumpStatement (start : Span) (isContinue : Bool) :
    Ensures e (jumpStatement start isContinue) (IsStatement e) := by
  refine .next fun token => ?_
  dsimp only
  split
  · exact .next fun _ => .pure_bind (isStatement_jump _ fun _ _ => rfl)
  · exact .pure_bind (isStatement_jump _ fun _ _ => rfl)

theorem isStatement_returnStatement (start : Span) :
    Ensures e (returnStatement self start) (IsStatement e) := by
  refine .read_bind (.ite (fun hin => ?_) fun _ => .reject_bind)
  have hrest : ∀ value : Option Tree, (∀ t ∈ value, Valued e.inFunction t) → Ensures e (do
      endStatement
      return Tree.ofList .returnStmt (← spanFrom start) (Tree.part .value value))
      (IsStatement e) := by
    intro value hvalue
    refine .next fun _ => .next fun span => .pure ⟨rfl, fits_of_parts ?_ ?_⟩
    · exact ⟨nofun, nofun, nofun, nofun, nofun, fun _ => reach_returns.trans hin, nofun⟩
    · exact forall_mem_part fun t ht => (hvalue t ht).partOf e rfl
  refine .next fun following => ?_
  dsimp only
  split
  all_goals first
    | exact .pure_bind (hrest _ nofun)
    | exact .bind (.optional (valued_expression h e)) hrest

omit h in
/-- A block in a role of a construct that jumps do not care for. -/
theorem part_of_block {body : Tree} (hbody : ∀ X : Reach, X.idle = e.reach.idle → body.Fits X)
    (hkind : head.kind.isPlain) (hneutral : head.kind.isNeutral) (hrole : role.isExpression = false)
    (hX : X.idle = e.reach.idle) : Part head X (body.withRole role) := by
  refine part_of_statement (hbody _ ?_) hkind hrole
  rw [Reach.inside_of_isNeutral hneutral, Reach.idle_idle, hX]

theorem fits_catchClause (start : Span) : Ensures e (catchClause self start) fun result =>
    result.1.head.role = none ∧ result.1.Fits e.reach.idle := by
  refine .next fun _ => .bind (valued_binding h e _) fun exception hexception => ?_
  refine .next fun guarded => ?_
  dsimp only
  refine .ite_bind (fun _ => .optional (valued_expression h e)) (fun _ => .pure nofun)
    fun guard hguard => .next fun _ => ?_
  refine .bind (fits_bracedBlock h e) fun body hbody => .next fun span => .pure ⟨rfl, ?_⟩
  have hin : e.inFunction → e.reach.idle.returns := fun hin => reach_returns.trans hin
  refine fits_of_parts (Head.fitsIn_of_not_isBound rfl) ?_
  simp only [List.forall_mem_append, List.forall_mem_singleton]
  refine ⟨⟨(hexception.part rfl).part hin, ?_⟩, part_of_block e hbody.2 rfl rfl rfl rfl⟩
  exact forall_mem_part fun t ht => ((hguard t ht).part rfl).part hin

theorem fits_catchClauses : Ensures e (catchClauses self) fun clauses =>
    ∀ t ∈ clauses, t.head.role = none ∧ t.Fits e.reach.idle := by
  refine .loop (I := fun state => ∀ t ∈ state.1, t.head.role = none ∧ t.Fits e.reach.idle) nofun ?_
  rintro ⟨clauses, final⟩ hclauses
  refine .next fun more => .ite (fun _ => ?_) fun _ => .pure ?_
  · refine .next fun s => .ite (fun _ => .reject_bind) fun _ => ?_
    refine .bind (fits_catchClause h e _) fun result hresult => .pure ?_
    exact List.forall_mem_cons.mpr ⟨hresult, hclauses⟩
  · exact fun t ht => hclauses t (List.mem_reverse.mp ht)

theorem isStatement_tryStatement (start : Span) :
    Ensures e (tryStatement self start) (IsStatement e) := by
  refine .bind (fits_bracedBlock h e) fun body hbody => ?_
  refine .bind (fits_catchClauses h e) fun catches hcatches => .next fun more => ?_
  dsimp only
  refine .ite_bind (fun _ => .optional (fits_bracedBlock h e)) (fun _ => .pure nofun)
    fun final hfinal => .ite (fun _ => .reject_bind) fun _ => .next fun span => .pure ⟨rfl, ?_⟩
  refine fits_of_parts (Head.fitsIn_of_not_isBound rfl) ?_
  simp only [List.forall_mem_append, List.forall_mem_singleton]
  refine ⟨⟨part_of_block e hbody.2 rfl rfl rfl rfl, fun t ht => ?_⟩, ?_⟩
  · exact part_of_bare rfl (hcatches t ht).1 (hcatches t ht).2
  · exact forall_mem_part fun t ht => part_of_block e (hfinal t ht).2 rfl rfl rfl rfl

theorem isStatement_labelStatement (start : Span) (label : String) :
    Ensures e (labelStatement self start label) (IsStatement e) := by
  refine .read_bind (.ite (fun _ => .reject_bind) fun hfree => ?_)
  refine .bind (statementIn_spec h e (.label label)) fun statement hstatement => ?_
  refine .next fun span => .pure ⟨rfl, fits_of_parts ?_ ?_⟩
  · refine ⟨nofun, nofun, nofun, nofun, fun _ hmem => hfree ?_, by simp, nofun⟩
    exact List.contains_iff_mem.mpr (mem_labels.mp hmem)
  · exact List.forall_mem_singleton.mpr (part_of_statement hstatement.2 rfl rfl)

theorem isStatement_declarationStatement (start : Span) {kind : Kind}
    (hkind : kind.isDeclarationList) :
    Ensures e (declarationStatement self start kind) (IsStatement e) := by
  refine .bind (loose_declarations h e start hkind true) fun list hlist => ?_
  exact .ite (fun _ => .reject_bind) fun _ => .next fun _ => .pure (hlist.1.isStatement e)

theorem isStatement_letStatement (start : Span) :
    Ensures e (letStatement self start) (IsStatement e) := by
  refine .bind (floats_letHead h e start) fun list hlist => .next fun token => ?_
  refine .ite (fun _ => ?_) fun _ => ?_
  · refine .next fun opening => .bind (fits_block h e _) fun body hbody => .next fun span => ?_
    refine .pure ⟨rfl, fits_of_parts (Head.fitsIn_of_not_isBound rfl) ?_⟩
    refine forall_mem_pair.mpr ⟨?_, ?_⟩
    · exact (bindings_part hlist.2).part fun hin => reach_returns.trans hin
    · exact part_of_block e hbody.2 rfl rfl rfl rfl
  · refine .bind (valued_assignmentBelow h e) fun value hvalue => ?_
    refine .next fun span => .next fun _ => .next fun span => .pure ⟨rfl, ?_⟩
    refine fits_of_parts (Head.fitsIn_of_not_isBound rfl) ?_
    exact List.forall_mem_singleton.mpr ((valued_letBlock hlist.2 hvalue).partOf e rfl)

theorem isStatement_bareStatement : Ensures e (bareStatement self) (IsStatement e) := by
  refine .next fun token => ?_
  dsimp only
  split
  · exact .read_bind ((isFunction_function h e _ _ _).mono fun t ht => ht.toLoose.isStatement e)
  · exact (fits_block h e _).mono fun t ht => ⟨ht.1, ht.2 _ rfl⟩
  · exact .pure ⟨rfl, .node (Head.fitsIn_of_not_isBound rfl) nofun nofun⟩
  · exact isStatement_ifStatement h e _
  · exact isStatement_switchStatement h e _
  · exact isStatement_forStatement h e _
  · exact isStatement_whileStatement h e _
  · exact isStatement_doStatement h e _
  · exact isStatement_jumpStatement e _ _
  · exact isStatement_jumpStatement e _ _
  · exact isStatement_tryStatement h e _
  · refine .bind (valued_expression h e) fun value hvalue => .next fun _ => .next fun span => ?_
    refine .pure ⟨rfl, fits_of_parts (Head.fitsIn_of_not_isBound rfl) ?_⟩
    exact List.forall_mem_singleton.mpr (hvalue.partOf e rfl)
  · exact isStatement_returnStatement h e _
  · refine .bind (valued_parenExpression h e) fun object hobject => ?_
    refine .bind (statementIn_spec h e .other) fun body hbody => .next fun span => .pure ⟨rfl, ?_⟩
    refine fits_of_parts (Head.fitsIn_of_not_isBound rfl) (forall_mem_pair.mpr ⟨?_, ?_⟩)
    · exact hobject.partOf e rfl
    · exact part_of_statement hbody.2 rfl rfl
  · refine .next fun _ => .next fun span => .pure ⟨rfl, ?_⟩
    exact .node (Head.fitsIn_of_not_isBound rfl) nofun nofun
  · exact isStatement_declarationStatement h e _ rfl
  · exact isStatement_declarationStatement h e _ rfl
  · refine .next fun following => .ite (fun _ => ?_) fun _ => ?_
    · exact isStatement_letStatement h e _
    · exact isStatement_declarationStatement h e _ rfl
  · exact .reject _ _
  · exact .reject _ _
  · refine .next fun following => .ite (fun _ => .next fun _ => ?_) fun _ => .next fun _ => ?_
    · exact isStatement_labelStatement h e _ _
    · exact isStatement_expressionStatement h e _
  · exact .next fun _ => isStatement_expressionStatement h e _

theorem isStatement_statement : Ensures e (statement self) (IsStatement e) := by
  refine .next fun _ => .next fun comments => ?_
  refine .bind (isStatement_bareStatement h e) fun t ht => .pure ?_
  cases t with
  | node head children => exact ⟨ht.1, fits_of_head ht.2 rfl rfl⟩

end Statements

/-! ### Scripts -/

/-- Whatever the budget, the productions place what they read. -/
theorem places_derive (budget : Nat) : Places (derive budget) := by
  induction budget with
  | zero => exact ⟨fun _ => .next fun _ => .reject _ _, fun _ _ _ => .next fun _ => .reject _ _⟩
  | succ budget ih =>
      refine ⟨fun e => isStatement_statement ih e, fun e symbol hsymbol => ?_⟩
      cases symbol with
      | statement => exact absurd rfl hsymbol
      | assignment => exact valued_assignment ih e
      | unary => exact valued_unary ih e
      | member calls => exact valued_member ih e calls
      | pattern => exact valued_pattern ih e

end ScriptMin.Grammar

namespace ScriptMin

open Grammar

variable {source : String} {line : Nat} {t : Tree}

/-- Every node of a script that is accepted is allowed where it is. -/
theorem fits_of_parseScript (h : parseScript source line = .ok t) :
    t.Fits {} ∧ t.head.kind = .script := by
  refine ensures_run (Q := fun t => t.Fits {} ∧ t.head.kind = .script)
    (fun budget e hframes hin => ?_) h
  have hself := places_derive budget
  have hreach : e.reach = {} := by
    rw [Surroundings.reach, hframes, hin]
    rfl
  refine .next fun s => .next fun s => ?_
  refine .bind (.withReader (.loop (I := AreStatements e) (Q := AreStatements e) nofun ?_)) ?_
  · intro statements hstatements
    refine .next fun done => .ite (fun _ => .pure ?_) fun _ => ?_
    · exact fun t ht => hstatements t (List.mem_reverse.mp ht)
    · refine .bind (hself.statement _) fun statement hstatement => .pure ?_
      exact List.forall_mem_cons.mpr ⟨hstatement, hstatements⟩
  · intro statements hstatements
    refine .next fun span => .next fun comments => .pure ?_
    have hfits : (Tree.ofList .script span statements).Fits {} :=
      fits_of_areStatements e rfl hstatements hreach.symm
    exact ⟨fits_of_head hfits rfl rfl, rfl⟩

/-- An expression that is accepted is allowed anywhere. -/
theorem valued_of_parseExpression (h : parseExpression source line = .ok t) : Valued false t := by
  refine ensures_run (fun budget e _ hin => ?_) h
  refine .bind (valued_expression (places_derive budget) e) fun tree htree => .next fun token => ?_
  exact .ite (fun _ => .pure (hin ▸ htree)) fun _ => .unexpected _ _

end ScriptMin
