import ScriptMin.Proofs.Pass.ReductionJumps
import ScriptMin.Proofs.Pass.Reductions
import ScriptMin.Proofs.Pass.Removals
import ScriptMin.Proofs.Pass.Shifting
import ScriptMin.Proofs.Store.Filling

/-!
The reduction of statements and expressions and the parts of conditional expressions. What moves
comes from statements and their lists, and what is made is made with all its parts, so that
conditional expressions have their parts afterwards and declarations their names.
-/

namespace ScriptMin

open Store Edit

variable {α β : Type} {s s' : Store} {id old new block anchor child statement expression : NodeId}
  {M : Set NodeId}

/-- Whether the kind is one of statements, apart from functions, scripts and declarations. -/
def Kind.isPlainStatement (kind : Kind) : Bool :=
  kind.isStatement && kind != .function && kind != .script && kind != .varList &&
    kind != .declaration

/-- Nodes of the kind give way to anything that can be put somewhere, whatever is around them. -/
def Kind.Yields (kind : Kind) : Prop :=
  kind ≠ .script ∧ kind ≠ .semicolon ∧ kind ≠ .declaration

namespace Store

/-- A sound store with a plan in which everything has what it needs. -/
structure Supplied (s : Store) : Prop where
  sound : s.Sound
  ordered : s.Ordered
  ample : s.Ample

/-- A statement is needed by nothing, unless it is a declaration. -/
theorem Supplied.spare_of_statement (h : s.Supplied) (hexpression : (s.head id).isExpression = false)
    (hkind : s.kind id ≠ .declaration) : s.Spare id := by
  intro p hp
  have hoperation := h.ordered.not_isOperation hp hexpression
  have hadmits := h.ordered.admits hp
  cases hcase : s.kind p <;> first | rfl | skip
  case conditional =>
      rw [hcase] at hoperation
      cases hoperation
  case varList => exact absurd (hadmits.declaration hcase) hkind
  case declaration =>
      have hrole : ∀ role : Role, role.isExpression → s.role? id ≠ some role := by
        intro role hrole heq
        rw [hadmits.role role heq hrole] at hexpression
        cases hexpression
      rcases h.sound.hosts_declaration hcase ((h.sound.linked p id).mpr hp) with ⟨hnames, -⟩ | hvalue
      · exact absurd hnames (hrole .names rfl)
      · exact absurd hvalue (hrole .initializer rfl)

/-- A statement can be moved, since there is nothing around it that needs it. -/
theorem Supplied.handy_of_kind (h : s.Supplied) {kind : Kind} (hkind : s.kind id = kind)
    (hstatement : kind.isPlainStatement) : s.Handy id := by
  simp only [Kind.isPlainStatement, Bool.and_eq_true, bne_iff_ne] at hstatement
  obtain ⟨⟨⟨⟨hstatement, hfunction⟩, hscript⟩, hlist⟩, hdeclaration⟩ := hstatement
  refine ⟨lt_of_kind (hkind ▸ hscript), h.ample.ne_root_of_kind (hkind ▸ hscript),
    h.spare_of_statement ?_ (hkind ▸ hdeclaration), filled_of_kind ⟨?_, hkind ▸ hlist⟩⟩
  · rw [Head.isExpression, show (s.head id).kind = kind from hkind, hstatement]
    simp [hfunction]
  · rw [hkind]
    rintro rfl
    cases hstatement

/-! ### Statements -/

theorem fills_foldl {f : Store → NodeId → Store} {ids : List NodeId} (h : s.Ample)
    (hf : ∀ id ∈ ids, ∀ s', Fills M s s' → Fills M s' (f s' id)) : Fills M s (ids.foldl f s) :=
  List.foldlRecOn _ _ (.refl h) fun s' hs id hid => hs.trans (hf id hid s' hs)

theorem fills_removeStatement (h : s.Ample) (hid : s.Handy id) :
    Fills M s (s.removeStatement id) := by
  rw [removeStatement]
  split
  · exact fills_remove h hid.spare
  · rcases hadd : s.add { kind := .semicolon, span := s.span id } with ⟨empty, s₁⟩
    obtain ⟨hs, hempty, hkind⟩ := handy_of_add (M := ∅) h hadd (by simp)
    have hid₁ := hid.of_fills_empty hs
    refine (hs.trans (fills_replace hs.ample hid₁.ne_root hempty ?_ (.inl hid₁.spare))).weaken
    exact fun _ hne => absurd hkind hne

theorem fills_insertBefore (h : s.Ample) (hanchor : s.Spare anchor) (hchild : s.Handy child)
    (hfree : s.Unlooped child) : Fills M s (s.insertBefore anchor child) := by
  rw [insertBefore]
  split
  · exact fills_insert h _ (h.parent_lt ‹_›) hchild (fun _ => hfree) (hanchor _ ‹_›)
  · exact .refl h

theorem fills_insertAfter (h : s.Ample) (hanchor : s.Spare anchor) (hchild : s.Handy child)
    (hfree : s.Unlooped child) : Fills M s (s.insertAfter anchor child) := by
  rw [insertAfter]
  split
  · exact fills_insert h _ (h.parent_lt ‹_›) hchild (fun _ => hfree) (hanchor _ ‹_›)
  · exact .refl h

/-- The statements of a block move to the place of a statement. -/
theorem fills_spliceBefore (h : s.Ample) (hanchor : s.Handy anchor)
    (hblock : s.kind block = .block) : Fills M s (s.spliceBefore block anchor) := by
  have hmoved : Fills ∅ s
      ((s.children block).foldl (fun s child => s.insertBefore anchor child) s) := by
    refine (List.foldlRecOn (motive := fun s' => Fills ∅ s s' ∧ ∀ x, s'.head x = s.head x) _ _
      ⟨.refl h, fun _ => rfl⟩ fun s' hs c hc => ?_).1
    have hc' := (h.handy_of_mem hc (by simp [hblock])).of_fills_empty hs.1
    have hfree : s'.Unlooped c := by
      rw [Unlooped, kind, role?, hs.2]
      exact h.listed (h.parent?_of_mem hc) (by rw [hblock]; rfl)
    refine ⟨hs.1.trans ?_, fun x => head_insertBefore.trans (hs.2 x)⟩
    exact fills_insertBefore hs.1.ample (hanchor.of_fills_empty hs.1).spare hc' hfree
  exact (hmoved.trans (fills_remove hmoved.ample (hanchor.of_fills_empty hmoved).spare)).weaken

/-- A statement takes the place of another one that is no expression statement. -/
theorem fills_replaceStatement (h : s.Ample) (hold : s.Handy old) (hkind : s.kind old ≠ .semicolon)
    (hnew : s.Handy new) : Fills M s (s.replaceStatement old new) := by
  rw [replaceStatement]
  split
  case isTrue hcase =>
      simp only [Bool.and_eq_true, beq_iff_eq] at hcase
      exact fills_spliceBefore h hold hcase.1.2
  case isFalse =>
      exact fills_replace h hold.ne_root hnew (fun heq => absurd heq hkind) (.inl hold.spare)

/-- An expression becomes a statement of its own. -/
theorem fills_wrapExpression (h : s.Ample) (hexpression : s.Handy expression)
    (hwrap : s.wrapExpression expression = (new, s')) : Fills M s s' ∧ s'.Handy new := by
  rcases hadd : s.add { kind := .semicolon, span := s.span expression } with ⟨statement, s₁⟩
  obtain ⟨hs, hnew, hkind⟩ := handy_of_add (M := ∅) h hadd (by simp)
  have happend := fills_appendAs (M := ∅) hs.ample .expression (by simp) hnew.lt
    (hexpression.of_fills_empty hs) (by rw [hkind]; rfl) (by simp [hkind])
  rw [wrapExpression, hadd] at hwrap
  obtain ⟨rfl, rfl⟩ := Prod.mk.inj hwrap
  exact ⟨(hs.trans happend).weaken, hnew.of_fills_empty happend⟩

/-- A part of a conditional expression takes the place of the whole. -/
theorem ample_replace_child (h : s.Ample) (hs : s.Forest) (hid : s.kind id = .conditional)
    (hc : child ∈ s.children id) : (s.replace id child).Ample := by
  have hlink := hs.parent?_of_mem hc
  have hroot := h.ne_root_of_kind (x := id) (by simp [hid])
  have hne : id ≠ child := by
    rintro rfl
    exact (hs.movable_child hc).off id rfl .refl
  have hlinked : (s.replace id child).Linked :=
    h.toLinked.replace (hs.child_lt hc) (hs.ne_root hlink)
  have hkind : ∀ x, (s.replace id child).kind x = s.kind x := by
    intro x
    rw [kind, head_replace hne (hs.child_lt hc)]
    split
    case isTrue heq => rw [heq]; rfl
    case isFalse => rfl
  have hparent : ∀ x p, (s.replace id child).parent? x = some p →
      x = child ∧ s.parent? id = some p ∨ x ≠ child ∧ x ≠ id ∧ s.parent? x = some p := by
    intro x p hp
    rw [parent?_replace hne (hs.child_lt hc)] at hp
    split at hp
    case isTrue heq => exact .inl ⟨heq, hp⟩
    case isFalse hx =>
        split at hp
        · cases hp
        · exact .inr ⟨hx, ‹_›, hp⟩
  have hnamed : ∀ x, s.Named x → (s.replace id child).Named x := fun x hx =>
    hx.replace h.toLinked hlinked hne (hs.child_lt hc) fun heq => by
      rw [hlink, Option.some_inj] at heq
      simpa [← heq, hid] using hx.kind_eq
  have hfilled : ∀ x, x ≠ id → s.Filled x → (s.replace id child).Filled x := by
    refine fun x hx hfilled => ⟨fun hcase => ?_, fun hcase d hd => ?_⟩ <;> rw [hkind] at hcase
    · rw [length_children_replace hne]
      · exact hfilled.parts hcase
      · rw [hlink]
        exact fun heq => hx (Option.some_inj.mp heq).symm
    · refine hnamed d ?_
      rcases hparent d x (hlinked.parent?_of_mem hd) with ⟨-, hup⟩ | ⟨-, -, hup⟩
      · have hbad := (hfilled.named hcase id ((h.linked x id).mpr hup)).kind_eq
        simp [hid] at hbad
      · exact hfilled.named hcase d ((h.linked x d).mpr hup)
  refine ⟨hlinked, ?_, fun {x p} hp => ?_, fun {x p} hp => ?_⟩
  · rw [root_replace hroot, hkind, h.root_kind]
  · rcases hparent x p hp with ⟨rfl, -⟩ | ⟨-, hx, hold⟩
    · exact hfilled x hne.symm (h.filled hlink)
    · exact hfilled x hx (h.filled hold)
  · rcases hparent x p hp with ⟨rfl, hup⟩ | ⟨hx, -, hold⟩
    · exact h.joins_replace hne (hs.child_lt hc) hup fun hcase => by simp [hid] at hcase
    · rw [Joins, Unlooped, hkind, hkind, role?, head_replace hne (hs.child_lt hc), if_neg hx]
      exact h.listed hold

end Store

/-- Conditional expressions have their parts after an edit. -/
def Edit.KeepsAmple (m : Edit α) (s : Store) : Prop := Gives m s fun _ s' => s'.Ample

/-! ### Branches -/

namespace Branches

theorem ample_decideIf (h : s.Supplied) (hkind : s.kind id = .ifElse) :
    KeepsAmple (decideIf id) s := by
  have hid := h.handy_of_kind hkind rfl
  have ha := h.ample
  rw [KeepsAmple, decideIf, gives_bind, gives_get]
  split
  · exact ha
  · dsimp only
    split
    case h_1 branch hbranch =>
        have hbranch' := ha.handy_of_mem (mem_of_child? hbranch) (by simp [hkind])
        exact (fills_replaceStatement (M := ∅) ha hid (by simp [hkind]) hbranch').ample
    case h_2 => exact (fills_removeStatement (M := ∅) ha hid).ample

theorem ample_decideConditional (h : s.Supplied) (hkind : s.kind id = .conditional) :
    KeepsAmple (decideConditional id) s := by
  have ha := h.ample
  rw [KeepsAmple, decideConditional, gives_bind, gives_get]
  split
  · exact ha
  · split
    · exact ha
    · exact ample_replace_child ha h.ordered.toForest hkind (mem_of_nth? ‹_›)

theorem ample_decideSwitch (h : s.Supplied) (hkind : s.kind id = .switchCase) :
    KeepsAmple (decideSwitch id) s := by
  have hid := h.handy_of_kind hkind rfl
  have ha := h.ample
  rw [KeepsAmple, decideSwitch, gives_bind, gives_get]
  split
  · exact ha
  case h_2 choice hchoice =>
      dsimp only
      split
      case h_1 => exact (fills_removeStatement (M := ∅) ha hid).ample
      case h_2 statements hstatements =>
          obtain ⟨hends, clause, -, hclause, hmem⟩ := isClauseBody_of_choice? hchoice hstatements
          have hbody : s.Handy statements := by
            refine ha.handy_of_mem hmem ?_
            rcases hclause with hclause | hclause <;> simp [hclause]
          have hmove : ∀ s', Fills ∅ s s' →
              ((s'.setRole statements none).replaceStatement id statements).Ample := by
            intro s' hs
            have hrole := hs.trans (fills_dropRole hs.ample statements)
            refine (fills_replaceStatement (M := ∅) hrole.ample (hid.of_fills_empty hrole) ?_
              (hbody.of_fills_empty hrole)).ample
            rw [hrole.kind_eq id hid.lt, hkind]
            simp
          split
          case h_1 last hlast =>
              have hbreak : s.kind last = .breakStmt := by
                rw [endsInBreak, hlast, Option.any_some, isPlainBreak, Bool.and_eq_true] at hends
                exact eq_of_beq hends.1
              exact hmove _ (fills_remove ha (h.handy_of_kind hbreak rfl).spare)
          case h_2 => exact hmove s (.refl ha)

theorem supplied_decideNode (h : s.Supplied) : Gives (decideNode id) s fun _ s' => s'.Supplied := by
  have hample : KeepsAmple (decideNode id) s := by
    rw [KeepsAmple, decideNode, gives_bind, gives_get]
    split
    · exact ample_decideIf h ‹_›
    · exact ample_decideConditional h ‹_›
    · exact ample_decideSwitch h ‹_›
    · exact h.ample
  refine (Gives.and (keeps_decideNode h.sound)
    (Gives.and (keepsOrder_decideNode h.ordered) hample)).mono ?_
  exact fun _ _ hs => ⟨hs.1.sound, hs.2.1.1, hs.2.2⟩

end Branches

/-! ### Expressions -/

/-- Something takes the place of a node that gives way. -/
theorem Store.ample_replace (h : s.Ample) (hid : (s.kind id).Yields) (hnew : s.Handy new) :
    (s.replace id new).Ample :=
  (fills_replace (M := {new}) h (h.ne_root_of_kind hid.1) hnew (fun heq => absurd heq hid.2.1)
    (.inr ⟨hid.2.2, rfl⟩)).ample

namespace Expressions

theorem fills_removeParens (h : s.Ample) : Gives (removeParens id) s fun _ s' => Fills ∅ s s' := by
  rw [removeParens, gives_bind, gives_get]
  split
  · rw [gives_bind, gives_modify, gives_pure, setParenthesized]
    exact fills_modifyHead h (fun _ => rfl) (fun _ htext => htext) fun _ => .inl rfl
  · exact .refl h

theorem ample_putLiteral (h : s.Ample) {kind : Kind} {payload : Payload}
    (hid : (s.kind id).Yields) (hkind : kind ≠ .conditional) :
    KeepsAmple (putLiteral id kind payload) s := by
  rw [KeepsAmple, putLiteral, gives_bind, gives_get]
  rcases hadd : s.add { kind, span := s.span id, payload } with ⟨literal, s₁⟩
  obtain ⟨hs, hnew, -⟩ := handy_of_add (M := ∅) h hadd hkind
  refine ample_replace hs.ample ?_ hnew
  rwa [hs.kind_eq id (lt_of_kind hid.1)]

theorem ample_foldNegation (h : s.Ample) (hid : (s.kind id).Yields) :
    KeepsAmple (foldNegation id) s := by
  rw [KeepsAmple, foldNegation, gives_bind, gives_get]
  split
  · exact h
  · split
    · exact h
    · split
      · exact h
      · split
        · exact h
        · exact ample_putLiteral h hid (by simp)

theorem ample_foldLiterals (h : s.Ample) (hid : (s.kind id).Yields) :
    KeepsAmple (foldLiterals id) s := by
  rw [KeepsAmple, foldLiterals, gives_bind, gives_get]
  split
  · split
    · rw [foldNumbers, gives_bind, gives_get]
      dsimp only
      split
      · exact h
      · split
        · exact ample_putLiteral h hid (by simp)
        · exact h
    · rw [foldStrings, gives_bind, gives_get]
      dsimp only
      split
      · exact ample_putLiteral h hid (by simp)
      · exact h
    · exact h
  · exact h

end Expressions

/-! ### Conditions -/

namespace Conditions

variable {condition first second target valueA valueB thenPart elsePart : NodeId}

/-- A part is added to a conditional expression. -/
theorem fills_appendPart (h : s.Ample) (hkind : s.kind new = .conditional)
    (hchild : s.Handy child) :
    Fills {child} s ((s.append new child).setRole child none) ∧
      (((s.append new child).setRole child none).children new).length =
        (s.children new).length + 1 := by
  have hlt : new < s.size := lt_of_kind (by simp [hkind])
  have happend := fills_append (M := {child}) h hlt hchild (by rw [hkind]; rfl)
    (.inr ⟨fun hlist => by simp [hkind] at hlist, rfl⟩)
  refine ⟨happend.trans (fills_dropRole happend.ample _), ?_⟩
  rw [setRole, children_modifyHead, append_eq, children_attach hlt, if_pos rfl, children_detach,
    if_neg fun hlink => by simpa [hkind] using hchild.spare new hlink, List.length_append,
    List.length_singleton]

/-- A conditional expression is made with all its parts. -/
theorem fills_conditional (h : s.Ample) (hcondition : s.Handy condition) (hfirst : s.Handy first)
    (hsecond : s.Handy second) (hdistinct : [condition, first, second].Nodup) :
    Gives (conditional condition first second) s fun value s' =>
      Fills {x | x ∈ [condition, first, second]} s s' ∧ s'.Handy value := by
  rw [conditional, gives_bind, gives_get]
  rcases hadd : s.add { kind := .conditional, span := s.span condition } with ⟨new, s₁⟩
  obtain ⟨hs, hnew, hlt, hspare, hkind⟩ := fills_of_add (M := ∅) h hadd
  have hne : ∀ {x}, s.Handy x → new ≠ x := by
    intro x hx
    rw [hnew]
    exact Nat.ne_of_gt hx.lt
  simp only [List.nodup_cons, List.mem_cons, List.not_mem_nil, or_false, not_or, not_false_iff,
    List.nodup_nil, and_true] at hdistinct
  obtain ⟨⟨hcf, hcs⟩, hfs⟩ := hdistinct
  -- Every part can still be moved when its turn comes.
  have hcondition₁ := hcondition.of_fills_empty hs
  obtain ⟨hs₁, hrow₁⟩ := fills_appendPart hs.ample hkind hcondition₁
  have hkind₂ := (hs₁.kind_eq new hlt).trans hkind
  have hfirst₂ := (hfirst.of_fills_empty hs).of_fills hs₁ (Ne.symm hcf)
  obtain ⟨hs₂, hrow₂⟩ := fills_appendPart hs₁.ample hkind₂ hfirst₂
  have hkind₃ := (hs₂.kind_eq new (hs₁.lt hlt)).trans hkind₂
  have hsecond₃ := ((hsecond.of_fills_empty hs).of_fills hs₁ (Ne.symm hcs)).of_fills hs₂ (Ne.symm hfs)
  obtain ⟨hs₃, hrow₃⟩ := fills_appendPart hs₂.ample hkind₃ hsecond₃
  rw [gives_bind, gives_set, gives_pure]
  have hall : Fills {x | x ∈ [condition, first, second]} s _ :=
    hs.weaken.trans ((hs₁.mono (by simp)).trans ((hs₂.mono (by simp)).trans (hs₃.mono (by simp))))
  have hkind₄ := (hs₃.kind_eq new (hs₂.lt (hs₁.lt hlt))).trans hkind₃
  refine ⟨hall, ?_, ?_, ?_, fun _ => ?_, fun hlist => ?_⟩
  · exact hs₃.lt (hs₂.lt (hs₁.lt hlt))
  · exact fun heq => Nat.ne_of_gt h.root_lt ((hnew.symm.trans heq).trans hall.root_eq)
  · refine hs₃.spare new (hs₂.lt (hs₁.lt hlt)) (hne hsecond) ?_
    exact hs₂.spare new (hs₁.lt hlt) (hne hfirst) (hs₁.spare new hlt (hne hcondition) hspare)
  · rw [hrow₂, hrow₁] at hrow₃
    exact le_of_le_of_eq (Nat.le_add_left 3 _) hrow₃.symm
  · exact absurd (hkind₄.symm.trans hlist) (by simp)

/-- An expression becomes a statement and takes the place of an `if`. -/
theorem ample_putExpression (h : s.Ample)
    (hid : (s.kind id).Yields) (hexpression : s.Handy expression) :
    KeepsAmple (putExpression id expression) s := by
  rw [KeepsAmple, putExpression, gives_bind, gives_get]
  rcases hwrap : s.wrapExpression expression with ⟨statement, s₁⟩
  obtain ⟨hs, hnew⟩ := fills_wrapExpression (M := ∅) h hexpression hwrap
  rw [gives_set]
  refine ample_replace hs.ample ?_ hnew
  rwa [hs.kind_eq id (lt_of_kind hid.1)]

theorem ample_mergeReturns (h : s.Ample)
    (hid : (s.kind id).Yields) (hcondition : s.Handy condition) (hfirst : s.Handy first)
    (hsecond : s.Handy second)
    (hdistinct : [condition, first, second].Nodup) :
    KeepsAmple (mergeReturns id condition first second) s := by
  rw [KeepsAmple, mergeReturns, gives_bind, gives_get]
  dsimp only
  rw [gives_bind]
  refine (fills_conditional h hcondition hfirst hsecond hdistinct).mono ?_
  rintro value s' ⟨hs, hvalue⟩
  rw [gives_bind, gives_get]
  rcases hadd : s'.add { kind := .returnStmt, span := s.span id } with ⟨statement, s₁⟩
  obtain ⟨hs₁, hnew, hkind⟩ := handy_of_add (M := ∅) hs.ample hadd (by simp)
  have happend := fills_appendAs (M := ∅) hs₁.ample .value (by simp) hnew.lt
    (hvalue.of_fills_empty hs₁) (by rw [hkind]; rfl) (by simp [hkind])
  have hlt := lt_of_kind hid.1
  rw [gives_set]
  refine ample_replace happend.ample ?_ (hnew.of_fills_empty happend)
  rwa [happend.kind_eq id (hs₁.lt (hs.lt hlt)), hs₁.kind_eq id (hs.lt hlt), hs.kind_eq id hlt]

theorem ample_mergeAssignments (h : s.Ample)
    (hid : (s.kind id).Yields) (hcondition : s.Handy condition) (htarget : s.Handy target)
    (hvalueA : s.Handy valueA) (hvalueB : s.Handy valueB)
    (hdistinct : [target, condition, valueA, valueB].Nodup) :
    KeepsAmple (mergeAssignments id condition first target valueA valueB) s := by
  obtain ⟨hnot, hdistinct⟩ := List.nodup_cons.mp hdistinct
  rw [KeepsAmple, mergeAssignments, gives_bind, gives_get, gives_bind]
  refine (fills_conditional h hcondition hvalueA hvalueB hdistinct).mono ?_
  rintro value s' ⟨hs, hvalue⟩
  rw [gives_bind, gives_get]
  rcases hadd : s'.add
    { kind := .assign, span := s.span id, assignOp := (s.head first).assignOp } with ⟨assign, s₁⟩
  obtain ⟨hs₁, hnew, hkind⟩ := handy_of_add (M := ∅) hs.ample hadd (by simp)
  have hleft := fills_append (M := ∅) hs₁.ample hnew.lt
    ((htarget.of_fills hs hnot).of_fills_empty hs₁) (by rw [hkind]; rfl) (.inl (by simp [hkind]))
  have hright := fills_append (M := ∅) hleft.ample (hleft.lt hnew.lt)
    ((hvalue.of_fills_empty hs₁).of_fills_empty hleft)
    (by rw [hleft.kind_eq assign hnew.lt, hkind]; rfl)
    (.inl (by rw [hleft.kind_eq assign hnew.lt, hkind]; simp))
  have hboth := hleft.trans hright
  have hlt := lt_of_kind hid.1
  rw [gives_bind, gives_set]
  refine ample_putExpression hboth.ample ?_ (hnew.of_fills_empty hboth)
  rwa [hboth.kind_eq id (hs₁.lt (hs.lt hlt)), hs₁.kind_eq id (hs.lt hlt), hs.kind_eq id hlt]

/-- Two branches of an `if` that are expressions, or return them. -/
structure Parts (s : Store) (id condition thenPart elsePart first second : NodeId) : Prop where
  ifElse : s.kind id = .ifElse
  condition : condition ∈ s.children id
  first : first ∈ s.children thenPart
  second : second ∈ s.children elsePart
  kind_then : s.kind thenPart = .semicolon ∨ s.kind thenPart = .returnStmt
  kind_else : s.kind elsePart = .semicolon ∨ s.kind elsePart = .returnStmt
  ne : thenPart ≠ elsePart

namespace Parts

variable (h : Parts s id condition thenPart elsePart first second)
include h

theorem then_ne : thenPart ≠ id := by
  rintro rfl
  have := h.kind_then
  simp [h.ifElse] at this

theorem else_ne : elsePart ≠ id := by
  rintro rfl
  have := h.kind_else
  simp [h.ifElse] at this

theorem handy_condition (ha : s.Ample) : s.Handy condition :=
  ha.handy_of_mem h.condition (by simp [h.ifElse])

theorem handy_first (ha : s.Ample) : s.Handy first :=
  ha.handy_of_mem h.first (by rcases h.kind_then with hkind | hkind <;> simp [hkind])

theorem handy_second (ha : s.Ample) : s.Handy second :=
  ha.handy_of_mem h.second (by rcases h.kind_else with hkind | hkind <;> simp [hkind])

end Parts

theorem ne_of_parents (h : s.Linked) {x y p q : NodeId} (hx : x ∈ s.children p)
    (hy : y ∈ s.children q) (hne : p ≠ q) : x ≠ y := by
  rintro rfl
  exact hne (Option.some_inj.mp ((h.parent?_of_mem hx).symm.trans (h.parent?_of_mem hy)))

theorem Parts.nodup (h : Parts s id condition thenPart elsePart first second) (hs : s.Linked) :
    [condition, first, second].Nodup := by
  have hcf := ne_of_parents hs h.condition h.first h.then_ne.symm
  have hcs := ne_of_parents hs h.condition h.second h.else_ne.symm
  have hfs := ne_of_parents hs h.first h.second h.ne
  simp [hcf, hcs, hfs]

theorem ample_mergeExpressions (ha : s.Ample)
    (h : Parts s id condition thenPart elsePart first second) :
    KeepsAmple (mergeExpressions id condition first second) s := by
  have hid : (s.kind id).Yields := by simp [Kind.Yields, h.ifElse]
  rw [KeepsAmple, mergeExpressions, gives_bind, gives_get]
  split
  case h_1 target valueA valueB htarget =>
      simp only [commonTarget?, Option.bind_eq_bind, Option.bind_eq_some_iff] at htarget
      obtain ⟨_, hguard, x, hx, a, hleft, b, hright, heq⟩ := htarget
      obtain ⟨rfl, rfl, rfl⟩ : x = target ∧ a = valueA ∧ b = valueB := by
        simpa [pure] using heq
      have hkinds := (Option.guard_eq_some' _).mp hguard
      simp only [Bool.and_eq_true, beq_iff_eq] at hkinds
      obtain ⟨⟨hfirst, hsecond⟩, -⟩ := hkinds
      have hfs := ne_of_parents ha.toLinked h.first h.second h.ne
      have hidf : id ≠ first := by rintro rfl; simp [h.ifElse] at hfirst
      have hids : id ≠ second := by rintro rfl; simp [h.ifElse] at hsecond
      have hsame : x ≠ a := by
        rintro rfl
        have := (List.getElem?_inj (List.getElem?_eq_some_iff.mp hx).1 (ha.nodup first)).mp
          (hx.trans hleft.symm)
        cases this
      have hdistinct : [x, condition, a, b].Nodup := by
        have hxc := ne_of_parents ha.toLinked (mem_of_nth? hx) h.condition hidf.symm
        have hxb := ne_of_parents ha.toLinked (mem_of_nth? hx) (mem_of_nth? hright) hfs
        have hca := ne_of_parents ha.toLinked h.condition (mem_of_nth? hleft) hidf
        have hcb := ne_of_parents ha.toLinked h.condition (mem_of_nth? hright) hids
        have hab := ne_of_parents ha.toLinked (mem_of_nth? hleft) (mem_of_nth? hright) hfs
        simp [hsame, hxc, hxb, hca, hcb, hab]
      exact ample_mergeAssignments ha hid (h.handy_condition ha)
        (ha.handy_of_mem (mem_of_nth? hx) (by simp [hfirst]))
        (ha.handy_of_mem (mem_of_nth? hleft) (by simp [hfirst]))
        (ha.handy_of_mem (mem_of_nth? hright) (by simp [hsecond])) hdistinct
  case h_2 =>
      rw [gives_bind]
      refine (fills_conditional ha (h.handy_condition ha) (h.handy_first ha) (h.handy_second ha)
        (h.nodup ha.toLinked)).mono ?_
      rintro value s' ⟨hs, hvalue⟩
      refine ample_putExpression hs.ample ?_ hvalue
      rwa [hs.kind_eq id (lt_of_kind hid.1)]

theorem fills_insertBehind {statements : List NodeId} (h : s.Ample) (hanchor : s.Spare anchor)
    (hstatements : ∀ x ∈ statements, s.Handy x ∧ s.Unlooped x) :
    Fills ∅ s (insertBehind anchor statements s) := by
  induction statements generalizing s anchor with
  | nil => exact .refl h
  | cons statement rest ih =>
      rw [List.forall_mem_cons] at hstatements
      obtain ⟨hstatement, hrest⟩ := hstatements
      have hinsert := fills_insertAfter (M := ∅) h hanchor hstatement.1 hstatement.2
      have hs := hinsert.trans (fills_dropRole hinsert.ample statement)
      rw [insertBehind]
      refine hs.trans (ih hs.ample (hstatement.1.of_fills_empty hs).spare fun x hx => ?_)
      exact ⟨(hrest x hx).1.of_fills_empty hs,
        ((hrest x hx).2.of_head head_insertAfter).setRole _ (by simp)⟩

theorem ample_liftElse (h : s.Supplied) (hkind : s.kind id = .ifElse)
    (helse : elsePart ∈ s.children id) : KeepsAmple (liftElse id thenPart elsePart) s := by
  have hid := h.handy_of_kind hkind rfl
  have ha := h.ample
  have helse' := ha.handy_of_mem helse (by simp [hkind])
  have hremove := fills_remove (M := ∅) ha helse'.spare
  have hbehind : ∀ statements, (∀ x ∈ statements, s.Handy x ∧ (s.remove elsePart).Unlooped x) →
      (insertBehind id statements (s.remove elsePart)).Ample := fun statements hstatements =>
    (fills_insertBehind hremove.ample (hid.of_fills_empty hremove).spare
      fun x hx => (hstatements x hx).imp_left fun hx => hx.of_fills_empty hremove).ample
  rw [KeepsAmple, liftElse, gives_bind, gives_get]
  split
  case isFalse => exact ha
  case isTrue =>
      split
      case isTrue hblock =>
          split
          · exact ha
          · refine hbehind _ fun x hx => ⟨ha.handy_of_mem hx (by simp [hblock]), Unlooped.remove ?_ _⟩
            exact ha.listed (ha.parent?_of_mem hx) (by rw [hblock]; rfl)
      case isFalse =>
          exact hbehind _ (List.forall_mem_singleton.mpr ⟨helse', unlooped_remove helse'.lt⟩)

/-- A copy of a node that has its parts is made with all parts. -/
theorem fills_copyPlain (ha : s.Ample) (h : s.Forest) (hid : s.Filled id) :
    Gives (copyPlain id) s fun copy s' => Fills ∅ s s' ∧ s'.Forest ∧ s'.Handy copy := by
  rw [copyPlain, gives_bind, gives_get]
  rcases hcopy : s.copy id with ⟨copy, s₁⟩
  obtain ⟨hs, -, hnew⟩ := fills_graft (M := ∅) ha (ha.full_view h hid) hcopy
  have hrole := fills_dropRole (M := ∅) hs.ample copy
  have hforest : s₁.Forest := by
    have hgraft := h.graft (s.view id)
    rwa [show s.graft (s.view id) = (copy, s₁) from hcopy] at hgraft
  rw [gives_bind, gives_set, gives_pure]
  exact ⟨hs.trans hrole, hforest.modifyHead _, hnew.of_fills_empty hrole⟩

theorem ample_toLogical (h : s.Supplied) (hkind : s.kind id = .ifElse)
    (hcondition : condition ∈ s.children id) : KeepsAmple (toLogical id condition thenPart) s := by
  have ha := h.ample
  rw [KeepsAmple, toLogical, gives_bind, gives_get]
  split
  case h_2 => exact ha
  case h_1 expression kind left hexpression hform =>
      have hleft : (kind ≠ .conditional ∧ kind.isFirm = false) ∧ kind.isStatementList = false ∧
          s.Filled left := by
        rw [logicalForm] at hform
        split at hform
        case isTrue =>
            obtain ⟨operand, hoperand, heq⟩ := Option.map_eq_some_iff.mp hform
            obtain ⟨rfl, rfl⟩ := Prod.mk.inj heq
            exact ⟨by simp, rfl, ha.filled (ha.parent?_of_mem (mem_of_nth? hoperand))⟩
        case isFalse =>
            obtain ⟨rfl, rfl⟩ := Prod.mk.inj (Option.some_inj.mp hform)
            exact ⟨by simp, rfl, ha.filled (ha.parent?_of_mem hcondition)⟩
      have hright : s.Handy expression :=
        ha.handy_of_mem (mem_of_expressionOf? hexpression)
          (by simp [kind_of_expressionOf? hexpression])
      rw [gives_bind]
      refine (fills_copyPlain ha h.ordered.toForest hleft.2.2).mono ?_
      rintro leftCopy s₁ ⟨hs₁, hforest₁, hleft'⟩
      rw [gives_bind]
      refine (fills_copyPlain hs₁.ample hforest₁ (hright.of_fills_empty hs₁).filled).mono ?_
      rintro rightCopy s₂ ⟨hs₂, -, hright'⟩
      rw [gives_bind, gives_get]
      rcases hadd : s₂.add { kind, span := s.span id } with ⟨logical, s₃⟩
      obtain ⟨hs₃, hnew, hkind₃⟩ := handy_of_add (M := ∅) hs₂.ample hadd hleft.1.1
      have hone := fills_append (M := ∅) hs₃.ample hnew.lt
        ((hleft'.of_fills_empty hs₂).of_fills_empty hs₃) (by rw [hkind₃]; exact hleft.2.1)
        (.inl (by rw [hkind₃]; exact hleft.1.2))
      have htwo := fills_append (M := ∅) hone.ample (hone.lt hnew.lt)
        ((hright'.of_fills_empty hs₃).of_fills_empty hone)
        (by rw [hone.kind_eq logical hnew.lt, hkind₃]; exact hleft.2.1)
        (.inl (by rw [hone.kind_eq logical hnew.lt, hkind₃]; exact hleft.1.2))
      have hboth := hone.trans htwo
      dsimp only
      rcases hwrap : ((s₃.append logical leftCopy).append logical rightCopy).wrapExpression logical
        with ⟨statement, s₄⟩
      obtain ⟨hs₄, hstatement⟩ := fills_wrapExpression (M := ∅) hboth.ample
        (hnew.of_fills_empty hboth) hwrap
      have hall := hs₁.trans (hs₂.trans (hs₃.trans (hboth.trans hs₄)))
      rw [gives_bind, gives_set]
      split
      · refine ample_replace hall.ample ?_ hstatement
        rw [hall.kind_eq id (lt_of_kind (by simp [hkind])), hkind]
        simp [Kind.Yields]
      · exact hall.ample

theorem ample_reduceBranches (h : s.Supplied) (hkind : s.kind id = .ifElse)
    (hcondition : condition ∈ s.children id) (hthen : s.child? id .thenPart = some thenPart)
    (helse : s.child? id .elsePart = some elsePart) :
    KeepsAmple (reduceBranches id condition thenPart elsePart) s := by
  have ha := h.ample
  have hne : thenPart ≠ elsePart := by
    rintro rfl
    have := (role?_of_child? hthen).symm.trans (role?_of_child? helse)
    cases this
  rw [KeepsAmple, reduceBranches, gives_bind, gives_get]
  split
  case h_1 first second hvalues =>
      simp only [returnedValues?, Option.bind_eq_bind, Option.bind_eq_some_iff] at hvalues
      obtain ⟨_, hguard, a, hfirst, b, hsecond, heq⟩ := hvalues
      obtain ⟨rfl, rfl⟩ : a = first ∧ b = second := by simpa [pure] using heq
      have hkinds := (Option.guard_eq_some' _).mp hguard
      simp only [Bool.and_eq_true, beq_iff_eq] at hkinds
      have hparts : Parts s id condition thenPart elsePart a b :=
        ⟨hkind, hcondition, mem_of_child? hfirst, mem_of_child? hsecond, .inr hkinds.1,
          .inr hkinds.2, hne⟩
      rw [gives_bind]
      exact ample_mergeReturns ha (by simp [Kind.Yields, hkind]) (hparts.handy_condition ha)
        (hparts.handy_first ha) (hparts.handy_second ha) (hparts.nodup ha.toLinked)
  case h_2 =>
      split
      case h_1 first second hvalues =>
          simp only [branchExpressions?, Option.bind_eq_bind, Option.bind_eq_some_iff] at hvalues
          obtain ⟨a, hfirst, b, hsecond, heq⟩ := hvalues
          obtain ⟨rfl, rfl⟩ : a = first ∧ b = second := by simpa [pure] using heq
          rw [gives_bind]
          exact ample_mergeExpressions ha
            ⟨hkind, hcondition, mem_of_expressionOf? hfirst, mem_of_expressionOf? hsecond,
              .inl (kind_of_expressionOf? hfirst), .inl (kind_of_expressionOf? hsecond), hne⟩
      case h_2 => exact ample_liftElse h hkind (mem_of_child? helse)

theorem ample_reduceIf (h : s.Supplied) (hkind : s.kind id = .ifElse) :
    KeepsAmple (reduceIf id) s := by
  rw [KeepsAmple, reduceIf, gives_bind, gives_get]
  split
  case h_1 condition thenPart hcondition hthen =>
      split
      case h_1 elsePart helse =>
          exact ample_reduceBranches h hkind (mem_of_child? hcondition) hthen helse
      case h_2 => exact ample_toLogical h hkind (mem_of_child? hcondition)
  case h_2 => exact h.ample

end Conditions

/-! ### Blocks -/

namespace Blocks

variable {list previous current first second comma : NodeId} {rest : List NodeId}

theorem fills_dissolve (h : s.Ample) (hid : s.Handy id) :
    Gives (dissolve id) s fun _ s' => Fills ∅ s s' := by
  rw [dissolve, gives_bind, gives_get]
  split
  case h_1 hkind =>
      split
      · exact fills_remove h hid.spare
      · exact .refl h
  case h_2 hkind =>
      split
      · exact .refl h
      · exact fills_spliceBefore h hid hkind
  case h_3 => exact .refl h

/-- The comma expression around the expression of a statement. -/
theorem fills_commaAround (h : s.Ample) (hfirst : first ∈ s.children previous)
    (hprevious : s.kind previous = .semicolon) :
    Gives (commaAround first) s fun comma s' => Fills ∅ s s' ∧ s'.kind comma = .comma := by
  have hfirst' := h.handy_of_mem hfirst (by simp [hprevious])
  rw [commaAround, gives_bind, gives_get]
  split
  case isTrue hopen =>
      simp only [isOpenComma, Bool.and_eq_true, beq_iff_eq] at hopen
      exact ⟨.refl h, hopen.1⟩
  case isFalse =>
      rcases hadd : s.add { kind := .comma, span := s.span first } with ⟨comma, s₁⟩
      obtain ⟨hs₁, hnew, hkind⟩ := handy_of_add (M := ∅) h hadd (by simp)
      have hfirst₁ := hfirst'.of_fills_empty hs₁
      have hplain : ∀ p, s₁.parent? first = some p → (s₁.kind p).isStatementList = false := by
        intro p hp
        have hlink := h.parent?_of_mem hfirst
        have hsame : s₁.parent? first = s.parent? first := by
          obtain rfl : (s.add _).2 = s₁ := congrArg Prod.snd hadd
          exact parent?_add _
        obtain rfl := Option.some_inj.mp (hlink.symm.trans (hsame.symm.trans hp))
        rw [hs₁.kind_eq previous (lt_of_mem_children hfirst), hprevious]
        rfl
      have hreplace := fills_replace (M := ∅) hs₁.ample hfirst₁.ne_root hnew (fun _ _ => hplain)
        (.inl hfirst₁.spare)
      have hcomma := (hreplace.kind_eq comma hnew.lt).trans hkind
      have happend := fills_append (M := ∅) hreplace.ample (hreplace.lt hnew.lt)
        (hfirst₁.of_fills_empty hreplace) (by rw [hcomma]; rfl) (.inl (by simp [hcomma]))
      have hrole := fills_dropRole (M := ∅) happend.ample first
      have hall := happend.trans hrole
      exact ⟨hs₁.trans (hreplace.trans hall), (hall.kind_eq comma (hreplace.lt hnew.lt)).trans hcomma⟩

theorem fills_extendComma (h : s.Ample) (hcomma : s.kind comma = .comma)
    (hsecond : s.Handy second) : Fills ∅ s (extendComma comma second s) := by
  have hlt : comma < s.size := lt_of_kind (by simp [hcomma])
  rw [extendComma]
  split
  case isTrue hopen =>
      simp only [isOpenComma, Bool.and_eq_true, beq_iff_eq] at hopen
      refine fills_foldl h fun part hpart s' hs => ?_
      refine fills_append hs.ample (hs.lt hlt) ?_ ?_ (.inl ?_)
      · exact (h.handy_of_mem hpart (by simp [hopen.1])).of_fills_empty hs
      · rw [hs.kind_eq comma hlt, hcomma]
        rfl
      · rw [hs.kind_eq comma hlt, hcomma]
        simp
  case isFalse =>
      have happend := fills_append (M := ∅) h hlt hsecond (by rw [hcomma]; rfl)
        (.inl (by simp [hcomma]))
      exact happend.trans (fills_dropRole happend.ample _)

theorem fills_mergeInto (h : s.Ample) (hrest : ∀ x ∈ rest, s.Handy x) :
    Gives (mergeInto previous rest) s fun _ s' => Fills ∅ s s' := by
  induction rest generalizing s previous with
  | nil => exact .refl h
  | cons current rest ih =>
      rw [List.forall_mem_cons] at hrest
      rw [mergeInto, gives_bind, gives_get]
      split
      case h_2 => exact ih h hrest.2
      case h_1 first second hfirst hsecond =>
          have hsecond' := h.handy_of_mem (mem_of_expressionOf? hsecond)
            (by simp [kind_of_expressionOf? hsecond])
          rw [gives_bind]
          refine (fills_commaAround h (mem_of_expressionOf? hfirst)
            (kind_of_expressionOf? hfirst)).mono ?_
          rintro comma s₁ ⟨hs₁, hcomma⟩
          have hextend := fills_extendComma hs₁.ample hcomma (hsecond'.of_fills_empty hs₁)
          have hboth := hs₁.trans hextend
          have hremove := fills_remove (M := ∅) hboth.ample (hrest.1.of_fills_empty hboth).spare
          have hall := hboth.trans hremove
          rw [gives_bind, gives_modify, gives_bind]
          refine (ih hall.ample fun x hx => (hrest.2 x hx).of_fills_empty hall).mono ?_
          exact fun _ s₂ hs₂ => hall.trans hs₂

theorem fills_reduceList (h : s.Ample) (hlt : list < s.size)
    (hlist : (s.kind list).isStatementList) :
    Gives (reduceList list) s fun _ s' => Fills ∅ s s' := by
  have hkind : (s.kind list).isFirm = false := by
    cases hkind : s.kind list <;> first | rfl | (rw [hkind] at hlist; cases hlist)
  have hsweep : Gives (sweep dissolve (s.children list)) s fun _ s' => Fills ∅ s s' := by
    refine (gives_sweep (I := fun rest s' => Fills ∅ s s' ∧ ∀ x ∈ rest, s'.Handy x)
      ⟨.refl h, fun x hx => h.handy_of_mem hx hkind⟩ ?_).mono fun _ _ hs => hs.1
    rintro item rest s' ⟨hs, hrest⟩
    rw [List.forall_mem_cons] at hrest
    refine (fills_dissolve hs.ample hrest.1).mono fun _ s'' hs' => ⟨hs.trans hs', ?_⟩
    exact fun x hx => (hrest.2 x hx).of_fills_empty hs'
  rw [reduceList, gives_bind, gives_get, gives_bind]
  refine hsweep.mono fun _ s' hs => ?_
  rw [gives_bind, gives_get]
  split
  · exact hs
  case h_2 first rest hchildren =>
      rw [gives_bind]
      refine (fills_mergeInto hs.ample fun x hx => ?_).mono fun _ s'' hs' => hs.trans hs'
      have hmem : x ∈ s'.children list := hchildren ▸ List.mem_cons_of_mem _ hx
      exact hs.ample.handy_of_mem hmem (by rwa [hs.kind_eq list hlt])

theorem ample_collapse (h : s.Ample) (hid : s.Handy id) (hkind : s.kind id = .block) :
    KeepsAmple (collapse id) s := by
  rw [KeepsAmple, collapse, gives_bind, gives_get]
  split
  · exact h
  · split
    · rcases hadd : s.add { kind := .semicolon, span := s.span id } with ⟨empty, s₁⟩
      obtain ⟨hs, hnew, -⟩ := handy_of_add (M := ∅) h hadd (by simp)
      refine ample_replace hs.ample ?_ hnew
      rw [hs.kind_eq id hid.lt, hkind]
      simp [Kind.Yields]
    case h_2 statement hchildren =>
        refine gives_ite (fun _ => h) fun _ => ?_
        rw [gives_bind, gives_modify]
        have hmem : statement ∈ s.children id := hchildren ▸ List.mem_singleton_self _
        exact ample_replace h (by simp [Kind.Yields, hkind]) (h.handy_of_mem hmem (by simp [hkind]))
    case h_3 => exact h

theorem ample_reduceForm (h : s.Supplied) (hlt : id < s.size) : KeepsAmple (reduceForm id) s := by
  have ha := h.ample
  rw [KeepsAmple, reduceForm, gives_bind, gives_get]
  split
  case h_1 hkind =>
      exact (fills_reduceList ha hlt (by rw [hkind]; rfl)).mono fun _ _ hs => hs.ample
  case h_2 hkind =>
      rw [gives_bind]
      refine (fills_reduceList ha hlt (by rw [hkind]; rfl)).mono fun _ s' hs => ?_
      have hid := h.handy_of_kind hkind rfl
      have hcollapse := ample_collapse hs.ample (hid.of_fills_empty hs)
        ((hs.kind_eq id hid.lt).trans hkind)
      rw [gives_bind]
      exact hcollapse.mono fun _ s'' hs' => hs'
  case h_3 hkind => exact Conditions.ample_reduceIf h hkind
  case h_4 hkind => exact Expressions.ample_foldNegation ha (by simp [Kind.Yields, hkind])
  case h_5 =>
      split
      case isTrue hbinary =>
          refine Expressions.ample_foldLiterals ha ⟨fun hkind => ?_, fun hkind => ?_, fun hkind => ?_⟩
          all_goals
            rw [hkind] at hbinary
            cases hbinary
      case isFalse => exact ha

theorem supplied_reduceNode (h : s.Supplied) (hlt : id < s.size) :
    Gives (reduceNode id) s fun _ s' => s'.Supplied ∧ s.size ≤ s'.size := by
  have hparens : Gives (Expressions.removeParens id) s fun _ s' => s'.Supplied ∧ s.size ≤ s'.size := by
    have hkeeps : KeepsOrder (Expressions.removeParens id) s :=
      (Expressions.keepsForest_removeParens h.ordered.toForest).keepsOrder
        (Expressions.keepsPlan_removeParens h.ordered)
    refine (Gives.and (Expressions.keeps_removeParens h.sound)
      (Gives.and hkeeps (Expressions.fills_removeParens h.ample))).mono ?_
    exact fun _ _ hs => ⟨⟨hs.1.sound, hs.2.1.1, hs.2.2.ample⟩, hs.1.size_le⟩
  have hample : KeepsAmple (reduceNode id) s := by
    rw [KeepsAmple, reduceNode, gives_bind]
    refine hparens.mono fun _ s' hs => ?_
    rw [gives_bind]
    exact (ample_reduceForm hs.1 (hlt.trans_le hs.2)).mono fun _ s'' hs' => hs'
  refine (Gives.and (keeps_reduceNode h.sound)
    (Gives.and (keepsOrder_reduceNode h.ordered) hample)).mono ?_
  exact fun _ _ hs => ⟨⟨hs.1.sound, hs.2.1.1, hs.2.2⟩, hs.1.size_le⟩

end Blocks

end ScriptMin
