import ScriptMin.Proofs.Pass.Editing
import ScriptMin.Proofs.Pass.ReductionForests

/-!
The passes that reduce statements and expressions keep a store sound: the removal of branches
that are never taken, and the reduction of blocks, conditions and operations on literals. What
they replace are statements, conditionals and operations, which stand in no place of their own.
-/

namespace ScriptMin

open Store Edit

variable {s s' : Store} {id expression : NodeId}

/-! ### Branches -/

namespace Branches

theorem keeps_decideIf (h : s.Sound) (hkind : s.kind id = .ifElse) : Keeps (decideIf id) s := by
  have hplaced : (s.kind id).isPlaced = false := by rw [hkind]; rfl
  have hform : s.kind id = .function → (s.head id).form ≠ some .expressed := by simp [hkind]
  rw [Keeps, decideIf, gives_bind, gives_get]
  split
  · exact .refl h
  · dsimp only
    split
    case h_1 branch hbranch =>
        refine evolves_replaceStatement h hplaced hform (by simp [hkind]) ?_
        exact h.portable_of_mem (mem_of_child? hbranch) (by simp [hkind])
    case h_2 => exact evolves_removeStatement h hplaced hform (by simp [hkind])

theorem keeps_decideConditional (h : s.Sound) (hkind : s.kind id = .conditional) :
    Keeps (decideConditional id) s := by
  rw [Keeps, decideConditional, gives_bind, gives_get]
  split
  · exact .refl h
  · split
    · exact .refl h
    · refine evolves_replace_of_kind h (by rw [hkind]; rfl) (by simp [hkind]) (by simp [hkind]) ?_
      exact h.portable_of_mem (mem_of_nth? ‹_›) (by simp [hkind])

theorem keeps_decideSwitch (h : s.Sound) (hkind : s.kind id = .switchCase) :
    Keeps (decideSwitch id) s := by
  have hplaced : (s.kind id).isPlaced = false := by rw [hkind]; rfl
  have hform : s.kind id = .function → (s.head id).form ≠ some .expressed := by simp [hkind]
  rw [Keeps, decideSwitch, gives_bind, gives_get]
  split
  · exact .refl h
  case h_2 choice hchoice =>
      dsimp only
      split
      case h_1 => exact evolves_removeStatement h hplaced hform (by simp [hkind])
      case h_2 statements hstatements =>
          obtain ⟨hends, clause, -, hclause, hmem⟩ := isClauseBody_of_choice? hchoice hstatements
          replace hclause : (s.kind clause).isRigid = false := by
            rcases hclause with hcase | hdefault
            · rw [hcase]
              rfl
            · rw [hdefault]
              rfl
          have hportable := h.portable_of_mem hmem (by rintro heq; rw [heq] at hclause; cases hclause)
          -- The statements move once their `break` is gone.
          have hmove : ∀ s', s.Evolves s' →
              (∀ p, s'.parent? statements = some p → p = clause) →
              s.Evolves ((s'.setRole statements none).replaceStatement id statements) := by
            intro s' hs hparent
            have hlt := (h.portable_of_kind hplaced).lt
            have hrole : s'.Evolves (s'.setRole statements none) := by
              refine evolves_setRole hs.sound (by simp) fun p hp => ?_
              rw [hparent p hp, hs.kind_eq clause (lt_of_mem_children hmem)]
              exact Kind.not_readsRoles_of_not_isRigid hclause
            have hboth := hs.trans hrole
            refine hboth.trans (evolves_replaceStatement hboth.sound ?_ ?_ ?_
              (hportable.of_evolves hboth))
            · rwa [hboth.kind_eq id hlt]
            · rw [hboth.kind_eq id hlt, hkind]
              simp
            · rw [hboth.kind_eq id hlt, hkind]
              simp
          have hparent : ∀ p, s.parent? statements = some p → p = clause := by
            intro p hp
            rw [h.parent?_of_mem hmem, Option.some_inj] at hp
            exact hp.symm
          split
          case h_1 last hlast =>
              have hbreak : s.kind last = .breakStmt := by
                simp only [endsInBreak, hlast, Option.any_some, isPlainBreak, Bool.and_eq_true,
                  beq_iff_eq] at hends
                exact hends.1
              have hremove := evolves_remove h (h.portable_of_kind (by rw [hbreak]; rfl)).not_key
              refine hmove _ hremove fun p hp => ?_
              rw [remove, parent?_setRole, parent?_detach] at hp
              split at hp
              · cases hp
              · exact hparent p hp
          case h_2 => exact hmove s (.refl h) hparent

theorem keeps_decideNode (h : s.Sound) : Keeps (decideNode id) s := by
  rw [Keeps, decideNode, gives_bind, gives_get]
  split
  · exact keeps_decideIf h ‹_›
  · exact keeps_decideConditional h ‹_›
  · exact keeps_decideSwitch h ‹_›
  · exact .refl h

end Branches

theorem keeps_removeDeadBranches (h : s.Sound) : Keeps removeDeadBranches s := by
  rw [Keeps, removeDeadBranches, gives_bind, gives_get]
  exact keeps_sweep h fun _ _ s' hs => Branches.keeps_decideNode hs.sound

/-! ### Expressions -/

namespace Expressions

theorem keeps_removeParens (h : s.Sound) : Keeps (removeParens id) s := by
  rw [Keeps, removeParens, gives_bind, gives_get]
  split
  · exact evolves_setParenthesized h false
  · exact .refl h

theorem keeps_putLiteral (h : s.Sound) {kind : Kind} {payload : Payload}
    (hid : (s.kind id).isPlaced = false) (hother : s.kind id ≠ .function ∧ s.kind id ≠ .block)
    (hkind : kind ≠ .identifier ∧ kind ≠ .function) : Keeps (putLiteral id kind payload) s := by
  have hhead : ({ kind, span := s.span id, payload } : Head).Complete :=
    Head.complete_of_kind hkind.1 hkind.2 rfl rfl
  have hlt := (h.portable_of_kind hid).lt
  have hadd := evolves_add h hhead
  refine hadd.trans (evolves_replace_of_kind hadd.sound ?_ ?_ ?_ (portable_add h hhead))
  · rwa [hadd.kind_eq id hlt]
  · rw [hadd.kind_eq id hlt]
    exact fun heq => absurd heq hother.1
  · rw [hadd.kind_eq id hlt]
    exact fun heq => absurd heq hother.2

theorem keeps_foldNegation (h : s.Sound) (hkind : s.kind id = .unaryMinus) :
    Keeps (foldNegation id) s := by
  rw [Keeps, foldNegation, gives_bind, gives_get]
  split
  · exact .refl h
  · split
    · exact .refl h
    · split
      · exact .refl h
      · split
        · exact .refl h
        · exact keeps_putLiteral h (by rw [hkind]; rfl) (by simp [hkind]) (by simp)

theorem not_isPlaced_of_isBinary {kind : Kind} (h : kind.isBinary) :
    kind.isPlaced = false ∧ kind ≠ .function ∧ kind ≠ .block := by
  cases kind <;> first | exact Bool.noConfusion h | exact ⟨rfl, nofun, nofun⟩

theorem keeps_foldLiterals (h : s.Sound) (hkind : (s.kind id).isBinary) :
    Keeps (foldLiterals id) s := by
  have hplaced := not_isPlaced_of_isBinary hkind
  rw [Keeps, foldLiterals, gives_bind, gives_get]
  split
  · split
    · rw [foldNumbers, gives_bind, gives_get]
      dsimp only
      split
      · exact .refl h
      · split
        · exact keeps_putLiteral h hplaced.1 hplaced.2 (by simp)
        · exact .refl h
    · rw [foldStrings, gives_bind, gives_get]
      dsimp only
      split
      · exact keeps_putLiteral h hplaced.1 hplaced.2 (by simp)
      · exact .refl h
    · exact .refl h
  · exact .refl h

end Expressions

/-! ### Conditions -/

namespace Conditions

/-- A new expression that can be put where the `if` is. -/
def GivesExpression (m : Edit NodeId) (s : Store) : Prop :=
  Gives m s fun id s' => s.Evolves s' ∧ s'.Portable id

theorem givesExpression_conditional {condition first second : NodeId} (h : s.Sound)
    (hcondition : s.Portable condition) (hfirst : s.Portable first) (hsecond : s.Portable second) :
    GivesExpression (conditional condition first second) s := by
  rw [GivesExpression, conditional, gives_bind, gives_get]
  rcases hadd : s.add { kind := .conditional, span := s.span condition } with ⟨new, s₁⟩
  obtain ⟨hs, hnew, hkind, -⟩ :=
    evolves_of_add h (Head.complete_of_kind (by simp) (by simp) rfl rfl) hadd
  have hparts : ∀ part ∈ [condition, first, second], s.Portable part := by
    simp only [List.forall_mem_cons, List.not_mem_nil, false_imp_iff, implies_true, and_true]
    exact ⟨hcondition, hfirst, hsecond⟩
  have hfold := evolves_foldl (fun s part => (s.append new part).setRole part none)
    [condition, first, second] hs.sound fun part hpart s' hs' => by
      refine evolves_append_setRole hs'.sound (by simp) ?_ (hs'.lt hnew.lt) ?_
      · rw [hs'.kind_eq _ hnew.lt, hkind]
        rfl
      · exact ((hparts part hpart).of_evolves hs).of_evolves hs'
  exact ⟨hs.trans hfold, hnew.of_evolves hfold⟩

/-- Something takes the place of an `if`. -/
theorem evolves_replace_if {new : NodeId} (hs : s.Evolves s') (hkind : s.kind id = .ifElse)
    (hnew : s'.Portable new) : s.Evolves (s'.replace id new) := by
  have hif : s'.kind id = .ifElse := by
    rw [hs.kind_eq id (lt_of_kind (by simp [hkind])), hkind]
  exact hs.trans
    (evolves_replace_of_kind hs.sound (by rw [hif]; rfl) (by simp [hif]) (by simp [hif]) hnew)

theorem gives_putExpression (hs : s.Evolves s') (hkind : s.kind id = .ifElse)
    (hexpression : s'.Portable expression) :
    Gives (putExpression id expression) s' fun _ s'' => s.Evolves s'' := by
  rw [putExpression, gives_bind, gives_get]
  rcases hwrap : s'.wrapExpression expression with ⟨statement, s₁⟩
  obtain ⟨hs₁, hstatement⟩ := evolves_of_wrapExpression hs.sound hexpression hwrap
  rw [gives_set]
  exact evolves_replace_if (hs.trans hs₁) hkind hstatement

theorem keeps_mergeReturns {condition first second : NodeId} (h : s.Sound)
    (hkind : s.kind id = .ifElse) (hcondition : s.Portable condition) (hfirst : s.Portable first)
    (hsecond : s.Portable second) : Keeps (mergeReturns id condition first second) s := by
  rw [Keeps, mergeReturns, gives_bind, gives_get]
  dsimp only
  rw [gives_bind]
  refine (givesExpression_conditional h hcondition hfirst hsecond).mono ?_
  rintro value s' ⟨hs, hvalue⟩
  rw [gives_bind, gives_get]
  rcases hadd : s'.add { kind := .returnStmt, span := s.span id } with ⟨statement, s₁⟩
  obtain ⟨hs₁, hnew, hkind₁, -⟩ :=
    evolves_of_add hs.sound (Head.complete_of_kind (by simp) (by simp) rfl rfl) hadd
  have happend := evolves_appendAs hs₁.sound .value (by simp) (by rw [hkind₁]; rfl) hnew.lt
    (hvalue.of_evolves hs₁)
  rw [gives_set]
  exact evolves_replace_if (hs.trans (hs₁.trans happend)) hkind (hnew.of_evolves happend)

theorem keeps_mergeAssignments {condition first target valueA valueB : NodeId} (h : s.Sound)
    (hkind : s.kind id = .ifElse) (hcondition : s.Portable condition)
    (htarget : s.Portable target) (hvalueA : s.Portable valueA) (hvalueB : s.Portable valueB) :
    Keeps (mergeAssignments id condition first target valueA valueB) s := by
  rw [Keeps, mergeAssignments, gives_bind, gives_get, gives_bind]
  refine (givesExpression_conditional h hcondition hvalueA hvalueB).mono ?_
  rintro value s' ⟨hs, hvalue⟩
  rw [gives_bind, gives_get]
  rcases hadd : s'.add
    { kind := .assign, span := s.span id, assignOp := (s.head first).assignOp } with ⟨assign, s₁⟩
  obtain ⟨hs₁, hnew, hkind₁, -⟩ :=
    evolves_of_add hs.sound (Head.complete_of_kind (by simp) (by simp) rfl rfl) hadd
  have hrigid : (s₁.kind assign).isRigid = false := by rw [hkind₁]; rfl
  have hleft := evolves_append hs₁.sound hrigid hnew.lt
    ((htarget.of_evolves hs).of_evolves hs₁)
  have hright := evolves_append hleft.sound (by rwa [hleft.kind_eq _ hnew.lt]) (hleft.lt hnew.lt)
    ((hvalue.of_evolves hs₁).of_evolves hleft)
  have hboth := hleft.trans hright
  rw [gives_bind, gives_set]
  exact gives_putExpression (hs.trans (hs₁.trans hboth)) hkind (hnew.of_evolves hboth)

theorem keeps_mergeExpressions {condition first second : NodeId} (h : s.Sound)
    (hkind : s.kind id = .ifElse) (hcondition : s.Portable condition) (hfirst : s.Portable first)
    (hsecond : s.Portable second) : Keeps (mergeExpressions id condition first second) s := by
  rw [Keeps, mergeExpressions, gives_bind, gives_get]
  split
  case h_1 target valueA valueB htarget =>
      simp only [commonTarget?, Option.bind_eq_bind, Option.bind_eq_some_iff] at htarget
      obtain ⟨_, hguard, x, hx, a, ha, b, hb, heq⟩ := htarget
      have hassign := (Option.guard_eq_some' _).mp hguard
      simp only [Bool.and_eq_true, beq_iff_eq] at hassign
      obtain ⟨rfl, rfl, rfl⟩ : x = target ∧ a = valueA ∧ b = valueB := by
        simpa [pure] using heq
      refine keeps_mergeAssignments h hkind hcondition ?_ ?_ ?_
      · exact h.portable_of_mem (mem_of_nth? hx) (by simp [hassign.1.1])
      · exact h.portable_of_mem (mem_of_nth? ha) (by simp [hassign.1.1])
      · exact h.portable_of_mem (mem_of_nth? hb) (by simp [hassign.1.2])
  case h_2 =>
      rw [gives_bind]
      refine (givesExpression_conditional h hcondition hfirst hsecond).mono ?_
      rintro value s' ⟨hs, hvalue⟩
      exact gives_putExpression hs hkind hvalue

/-- Statements move one after the other behind one that stands in a list of statements. -/
theorem evolves_insertBehind {anchor : NodeId} {statements : List NodeId} (h : s.Sound)
    (hanchor : s.inStatementList anchor) (hstatements : ∀ x ∈ statements, s.Portable x) :
    s.Evolves (insertBehind anchor statements s) := by
  induction statements generalizing s anchor with
  | nil => exact .refl h
  | cons statement rest ih =>
      rw [List.forall_mem_cons] at hstatements
      obtain ⟨hinsert, hlisted⟩ :=
        evolves_insertAfter_of_inStatementList h hanchor hstatements.1
      have hrole : (s.insertAfter anchor statement).Evolves
          ((s.insertAfter anchor statement).setRole statement none) :=
        evolves_setRole hinsert.sound (by simp) (listed_of_inStatementList hlisted).not_readsRoles
      have hboth := hinsert.trans hrole
      rw [insertBehind]
      refine hboth.trans (ih hboth.sound ?_ fun x hx => (hstatements.2 x hx).of_evolves hboth)
      -- A role does not change where the statement stands.
      rw [inStatementList, parentKind?, parent?_setRole]
      cases hp : (s.insertAfter anchor statement).parent? statement with
      | none =>
          rw [inStatementList, parentKind?, hp] at hlisted
          cases hlisted
      | some p =>
          rw [inStatementList, parentKind?, hp] at hlisted
          rw [Option.map_some, hrole.kind_eq p (hinsert.sound.parent_lt hp)]
          exact hlisted

theorem keeps_liftElse {thenPart elsePart : NodeId} (h : s.Sound) (hkind : s.kind id = .ifElse)
    (helse : elsePart ∈ s.children id) : Keeps (liftElse id thenPart elsePart) s := by
  have hportable := h.portable_of_mem helse (by simp [hkind])
  have hremove := evolves_remove h hportable.not_key
  rw [Keeps, liftElse, gives_bind, gives_get]
  split
  case isFalse => exact .refl h
  case isTrue hcase =>
      rw [Bool.and_eq_true] at hcase
      have hlisted : (s.remove elsePart).inStatementList id := by
        have hlisted := hcase.1
        rw [inStatementList, parentKind?] at hlisted ⊢
        have hparent : (s.remove elsePart).parent? id = s.parent? id := by
          rw [remove, parent?_setRole, parent?_detach, if_neg]
          rintro rfl
          rw [h.parent?_of_mem helse, Option.map_some, hkind] at hlisted
          cases hlisted
        rw [hparent]
        cases hp : s.parent? id with
        | none =>
            rw [hp] at hlisted
            cases hlisted
        | some p =>
            rw [hp] at hlisted
            rw [Option.map_some, hremove.kind_eq p (h.parent_lt hp)]
            exact hlisted
      split
      case isTrue hblock =>
          split
          · exact .refl h
          · refine hremove.trans (evolves_insertBehind hremove.sound hlisted fun x hx => ?_)
            exact (h.portable_of_mem hx (by simp [hblock])).of_evolves hremove
      case isFalse =>
          refine hremove.trans (evolves_insertBehind hremove.sound hlisted ?_)
          exact List.forall_mem_singleton.mpr (hportable.of_evolves hremove)

theorem givesExpression_copyPlain (h : s.Sound) : GivesExpression (copyPlain id) s := by
  rw [GivesExpression, copyPlain, gives_bind, gives_get]
  rcases hcopy : s.copy id with ⟨copy, s₁⟩
  obtain ⟨hs, hportable, hparent⟩ := evolves_graft h (h.formed_viewFrom _ id) hcopy
  have hrole : s₁.Evolves (s₁.setRole copy none) := by
    refine evolves_setRole hs.sound (by simp) fun p hp => ?_
    rw [hparent] at hp
    cases hp
  exact ⟨hs.trans hrole, hportable.of_evolves hrole⟩

theorem keeps_toLogical {condition thenPart : NodeId} (h : s.Sound) (hkind : s.kind id = .ifElse) :
    Keeps (toLogical id condition thenPart) s := by
  rw [Keeps, toLogical, gives_bind, gives_get]
  split
  case h_2 => exact .refl h
  case h_1 expression kind left _ hform =>
      have hlogical : kind = .or ∨ kind = .and := by
        rw [logicalForm] at hform
        split at hform
        · obtain ⟨operand, -, heq⟩ := Option.map_eq_some_iff.mp hform
          exact .inl (congrArg Prod.fst heq).symm
        · exact .inr (congrArg Prod.fst (Option.some_inj.mp hform)).symm
      rw [gives_bind]
      refine (givesExpression_copyPlain h).mono ?_
      rintro leftCopy s₁ ⟨hs₁, hleft⟩
      rw [gives_bind]
      refine (givesExpression_copyPlain hs₁.sound).mono ?_
      rintro rightCopy s₂ ⟨hs₂, hright⟩
      rw [gives_bind, gives_get]
      rcases hadd : s₂.add { kind, span := s.span id } with ⟨logical, s₃⟩
      obtain ⟨hs₃, hnew, hkind₃, -⟩ := evolves_of_add hs₂.sound
        (Head.complete_of_kind (by rcases hlogical with rfl | rfl <;> simp)
          (by rcases hlogical with rfl | rfl <;> simp) rfl rfl) hadd
      have hrigid : (s₃.kind logical).isRigid = false := by
        rw [hkind₃]
        rcases hlogical with rfl | rfl <;> rfl
      have hone := evolves_append hs₃.sound hrigid hnew.lt
        ((hleft.of_evolves hs₂).of_evolves hs₃)
      have htwo := evolves_append hone.sound (by rwa [hone.kind_eq _ hnew.lt]) (hone.lt hnew.lt)
        ((hright.of_evolves hs₃).of_evolves hone)
      have hboth := hone.trans htwo
      dsimp only
      rcases hwrap : ((s₃.append logical leftCopy).append logical rightCopy).wrapExpression logical
        with ⟨statement, s₄⟩
      obtain ⟨hs₄, hstatement⟩ := evolves_of_wrapExpression hboth.sound (hnew.of_evolves hboth) hwrap
      have hall := hs₁.trans (hs₂.trans (hs₃.trans (hboth.trans hs₄)))
      rw [gives_bind, gives_set]
      split
      · exact evolves_replace_if hall hkind hstatement
      · exact hall

theorem keeps_reduceBranches {condition thenPart elsePart : NodeId} (h : s.Sound)
    (hkind : s.kind id = .ifElse) (hcondition : condition ∈ s.children id)
    (helse : elsePart ∈ s.children id) :
    Keeps (reduceBranches id condition thenPart elsePart) s := by
  have hcondition' := h.portable_of_mem hcondition (by simp [hkind])
  rw [Keeps, reduceBranches, gives_bind, gives_get]
  split
  case h_1 first second hvalues =>
      simp only [returnedValues?, Option.bind_eq_bind, Option.bind_eq_some_iff] at hvalues
      obtain ⟨_, -, a, ha, b, hb, heq⟩ := hvalues
      obtain ⟨rfl, rfl⟩ : a = first ∧ b = second := by simpa [pure] using heq
      rw [gives_bind]
      exact keeps_mergeReturns h hkind hcondition' (h.portable_of_child? ha)
        (h.portable_of_child? hb)
  case h_2 =>
      split
      case h_1 first second hvalues =>
          simp only [branchExpressions?, Option.bind_eq_bind, Option.bind_eq_some_iff] at hvalues
          obtain ⟨a, ha, b, hb, heq⟩ := hvalues
          obtain ⟨rfl, rfl⟩ : a = first ∧ b = second := by simpa [pure] using heq
          rw [gives_bind]
          exact keeps_mergeExpressions h hkind hcondition' (h.portable_of_expressionOf? ha)
            (h.portable_of_expressionOf? hb)
      case h_2 => exact keeps_liftElse h hkind helse

theorem keeps_reduceIf (h : s.Sound) (hkind : s.kind id = .ifElse) : Keeps (reduceIf id) s := by
  rw [Keeps, reduceIf, gives_bind, gives_get]
  split
  case h_1 condition thenPart hcondition hthen =>
      split
      case h_1 elsePart helse =>
          exact keeps_reduceBranches h hkind (mem_of_child? hcondition) (mem_of_child? helse)
      case h_2 => exact keeps_toLogical h hkind
  case h_2 => exact .refl h

end Conditions

/-! ### Blocks -/

namespace Blocks

variable {list previous current first second comma : NodeId} {rest : List NodeId}

/-- What stands in a list of statements is dissolved; other statements stay in their lists. -/
theorem gives_dissolve (h : s.Sound) (hid : s.Listed id) :
    Gives (dissolve id) s fun _ s' => s.Evolves s' ∧ ∀ other, s.Listed other → s'.Listed other := by
  rw [dissolve, gives_bind, gives_get]
  split
  case h_1 hkind =>
      split
      · rw [gives_bind, gives_modify]
        refine ⟨evolves_remove h (h.portable_of_kind (by rw [hkind]; rfl)).not_key, ?_⟩
        exact fun other hother => hother.remove
      · exact ⟨.refl h, fun _ hother => hother⟩
  case h_2 hkind =>
      split
      · exact ⟨.refl h, fun _ hother => hother⟩
      · rw [gives_bind, gives_modify]
        exact evolves_spliceBefore h hid (h.portable_of_kind (by rw [hkind]; rfl)) (by simp [hkind])
  case h_3 => exact ⟨.refl h, fun _ hother => hother⟩

/-- The comma expression around an expression in a role, below a node whose kind asks for
nothing. -/
theorem gives_commaAround_kind (h : s.Sound) (hfirst : first ∈ s.children previous)
    (hprevious : (s.kind previous).isRigid = false) 
    (hasked : s.role? first ≠ some .params ∧ s.role? first ≠ some .statements) :
    Gives (commaAround first) s fun comma s' => s.Evolves s' ∧ s'.kind comma = .comma := by
  have hportable := h.portable_of_mem hfirst (by rintro heq; rw [heq] at hprevious; cases hprevious)
  rw [commaAround, gives_bind, gives_get]
  split
  case isTrue hopen =>
      simp only [isOpenComma, Bool.and_eq_true, beq_iff_eq] at hopen
      exact ⟨.refl h, hopen.1⟩
  case isFalse =>
      rcases hadd : s.add { kind := .comma, span := s.span first } with ⟨comma, s₁⟩
      obtain ⟨hs₁, hnew, hkind, -, hhead⟩ :=
        evolves_of_add h (Head.complete_of_kind (by simp) (by simp) rfl rfl) hadd
      have hparent : s₁.parent? first = some previous := by
        rw [show s₁ = (s.add { kind := .comma, span := s.span first }).2 by rw [hadd], parent?_add,
          h.parent?_of_mem hfirst]
      have hreplace : s₁.Evolves (s₁.replace first comma) := by
        refine evolves_replace hs₁.sound (.inl fun p hp => ?_) ?_ ?_ hnew
        · rw [hparent, Option.some_inj] at hp
          rw [← hp, hs₁.kind_eq _ (lt_of_mem_children hfirst)]
          exact hprevious
        · rwa [role?, hhead first hportable.lt]
        · exact (hportable.of_evolves hs₁).ne_root
      have hcomma : (s₁.replace first comma).kind comma = .comma := by
        rw [hreplace.kind_eq comma hnew.lt, hkind]
      have hlt := hreplace.lt hnew.lt
      have hrole : (none : Option Role) ≠ some .params ∧ (none : Option Role) ≠ some .statements := by
        simp
      have happend := evolves_append_setRole hreplace.sound hrole (by rw [hcomma]; rfl)
        hlt ((hportable.of_evolves hs₁).of_evolves hreplace)
      exact ⟨hs₁.trans (hreplace.trans happend), (happend.kind_eq comma hlt).trans hcomma⟩

theorem evolves_extendComma (h : s.Sound) (hcomma : s.kind comma = .comma)
    (hsecond : s.Portable second) : s.Evolves (extendComma comma second s) := by
  have hrigid : (s.kind comma).isRigid = false := by rw [hcomma]; rfl
  have hlt : comma < s.size := lt_of_kind (by simp [hcomma])
  rw [extendComma]
  split
  case isTrue hopen =>
      simp only [isOpenComma, Bool.and_eq_true, beq_iff_eq] at hopen
      refine evolves_foldl _ _ h fun part hpart s' hs => ?_
      refine evolves_append hs.sound (by rwa [hs.kind_eq comma hlt]) (hs.lt hlt) ?_
      exact (h.portable_of_mem hpart (by simp [hopen.1])).of_evolves hs
  case isFalse => exact evolves_append_setRole h (by simp) hrigid hlt hsecond

theorem keeps_mergeInto (h : s.Sound) : Keeps (mergeInto previous rest) s := by
  induction rest generalizing s previous with
  | nil => exact .refl h
  | cons current rest ih =>
      rw [Keeps, mergeInto, gives_bind, gives_get]
      split
      case h_2 => exact ih h
      case h_1 first second hfirst hsecond =>
          have hsecond' := h.portable_of_expressionOf? hsecond
          have hcurrent : s.Portable current :=
            h.portable_of_kind (by rw [kind_of_expressionOf? hsecond]; rfl)
          rw [gives_bind]
          refine Gives.mono (gives_commaAround_kind h (mem_of_expressionOf? hfirst)
            (by rw [kind_of_expressionOf? hfirst]; rfl) ?_) ?_
          · rw [role?_of_expressionOf? hfirst]
            simp
          rintro comma s₁ ⟨hs₁, hcomma⟩
          have hextend := evolves_extendComma hs₁.sound hcomma (hsecond'.of_evolves hs₁)
          have hboth := hs₁.trans hextend
          have hremove := evolves_remove hboth.sound (hcurrent.of_evolves hboth).not_key
          have hall := hboth.trans hremove
          rw [gives_bind, gives_modify, gives_bind]
          exact Gives.mono (ih hall.sound) fun _ s₂ hs₂ => hall.trans hs₂

theorem keeps_reduceList (h : s.Sound) (hlist : (s.kind list).isStatementList) :
    Keeps (reduceList list) s := by
  have hsweep : Keeps (sweep dissolve (s.children list)) s := by
    refine (gives_sweep (I := fun rest s' => s.Evolves s' ∧ ∀ x ∈ rest, s'.Listed x)
      ⟨.refl h, fun x hx p hp => ?_⟩ ?_).mono fun _ s' hs => hs.1
    · rw [h.parent?_of_mem hx, Option.some_inj] at hp
      exact hp ▸ hlist
    · rintro item rest s' ⟨hs, hlisted⟩
      rw [List.forall_mem_cons] at hlisted
      refine (gives_dissolve hs.sound hlisted.1).mono fun _ s'' hs' => ?_
      exact ⟨hs.trans hs'.1, fun x hx => hs'.2 x (hlisted.2 x hx)⟩
  rw [Keeps, reduceList, gives_bind, gives_get]
  refine hsweep.bind fun _ s' hs => ?_
  rw [Keeps, gives_bind, gives_get]
  split
  · exact .refl hs.sound
  · exact (keeps_mergeInto hs.sound).bind fun _ s'' hs' => keeps_pure hs'.sound

theorem keeps_collapse (h : s.Sound) (hkind : s.kind id = .block) : Keeps (collapse id) s := by
  have hplaced : (s.kind id).isPlaced = false := by rw [hkind]; rfl
  have hform : s.kind id = .function → (s.head id).form ≠ some .expressed := by simp [hkind]
  rw [Keeps, collapse, gives_bind, gives_get]
  split
  · exact .refl h
  case isFalse hposition =>
      have hblock : s.kind id = .block → s.role? id ≠ some .statements := by
        intro _ hrole
        simp [inStatementPosition, hrole] at hposition
      split
      · rcases hadd : s.add { kind := .semicolon, span := s.span id } with ⟨empty, s₁⟩
        obtain ⟨hs, hnew, -, -, hhead⟩ :=
          evolves_of_add h (Head.complete_of_kind (by simp) (by simp) rfl rfl) hadd
        have hlt := (h.portable_of_kind hplaced).lt
        refine hs.trans (evolves_replace_of_kind hs.sound ?_ ?_ ?_ hnew)
        · rwa [hs.kind_eq id hlt]
        · rwa [hs.kind_eq id hlt, hhead id hlt]
        · rwa [hs.kind_eq id hlt, role?, hhead id hlt]
      case h_2 statement hchildren =>
          refine gives_ite (fun _ => .refl h) fun _ => ?_
          rw [gives_bind, gives_modify]
          have hmem : statement ∈ s.children id := by
            rw [hchildren]
            exact List.mem_singleton_self _
          exact evolves_replace_of_kind h hplaced hform hblock
            (h.portable_of_mem hmem (by simp [hkind]))
      case h_3 => exact .refl h

theorem keeps_reduceForm (h : s.Sound) : Keeps (reduceForm id) s := by
  rw [Keeps, reduceForm, gives_bind, gives_get]
  split
  case h_1 hkind => exact keeps_reduceList h (by rw [hkind]; rfl)
  case h_2 hkind =>
      refine (keeps_reduceList h (by rw [hkind]; rfl)).bind fun _ s' hs => ?_
      have hkind' : s'.kind id = .block := by
        rw [hs.kind_eq id (lt_of_kind (by simp [hkind])), hkind]
      exact (keeps_collapse hs.sound hkind').bind fun _ s'' hs' => keeps_pure hs'.sound
  case h_3 hkind => exact Conditions.keeps_reduceIf h hkind
  case h_4 hkind => exact Expressions.keeps_foldNegation h hkind
  case h_5 =>
      split
      · exact Expressions.keeps_foldLiterals h ‹_›
      · exact .refl h

theorem keeps_reduceNode (h : s.Sound) : Keeps (reduceNode id) s := by
  refine (Expressions.keeps_removeParens h).bind fun _ s' hs => ?_
  exact (keeps_reduceForm hs.sound).bind fun _ s'' hs' => keeps_pure hs'.sound

end Blocks

theorem keeps_reduceBlocks (h : s.Sound) : Keeps reduceBlocks s := by
  rw [Keeps, reduceBlocks, gives_bind, gives_get]
  exact keeps_sweep h fun _ _ s' hs => Blocks.keeps_reduceNode hs.sound

end ScriptMin
