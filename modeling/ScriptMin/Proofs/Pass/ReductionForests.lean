import Mathlib.Data.Option.Basic
import ScriptMin.Pass.Blocks
import ScriptMin.Pass.Branches
import ScriptMin.Proofs.Pass.Following

/-!
The passes that reduce statements and expressions leave forests behind: the removal of branches
that are never taken, and the reduction of blocks, conditions and operations on literals. What
takes the place of a node comes from below it or is new, so that it is on no line above; where
statements are merged into a neighbour, they come from below another child of the same list.
-/

namespace ScriptMin

open Store Edit

variable {s s' : Store} {id expression : NodeId} {S : Set NodeId}

/-! ### Branches -/

namespace Branches

theorem keepsForest_decideIf (h : s.Forest) : KeepsForest (decideIf id) s := by
  rw [KeepsForest, decideIf, gives_bind, gives_get]
  split
  · exact h
  · dsimp only
    split
    case h_1 branch hbranch =>
        exact h.replaceStatement (h.movable_child (mem_of_child? hbranch))
    case h_2 => exact h.removeStatement

theorem keepsForest_decideConditional (h : s.Forest) : KeepsForest (decideConditional id) s := by
  rw [KeepsForest, decideConditional, gives_bind, gives_get]
  split
  · exact h
  · split
    · exact h
    · exact h.replace_child (mem_of_nth? ‹_›)

/-- A node holds the statements of a clause of a `switch`, the last of which is a `break`. -/
def IsClauseBody (s : Store) (switch statements : NodeId) : Prop :=
  endsInBreak s statements ∧
    ∃ clause ∈ s.children switch, (s.kind clause = .caseClause ∨ s.kind clause = .defaultClause) ∧
      statements ∈ s.children clause

variable {switch value clause body : NodeId} {choice choice' : Choice}

/-- A clause that is taken into account contributes its statements at most. -/
theorem forall_of_consider {P : NodeId → Prop}
    (hchoice : ∀ body, choice.chosen = some body ∨ choice.fallback = some body → P body)
    (hclause : ∀ body, s.child? clause .statements = some body → endsInBreak s body →
      breaksEarly s switch body = false → P body)
    (h : consider s switch value choice clause = some choice') :
    ∀ body, choice'.chosen = some body ∨ choice'.fallback = some body → P body := by
  simp only [consider, Option.bind_eq_bind, Option.bind_eq_some_iff] at h
  obtain ⟨body, hbody, _, hguard, hrest⟩ := h
  have hfits : P body := by
    have hends := (Option.guard_eq_some' _).mp hguard
    rw [Bool.and_eq_true, Bool.not_eq_true'] at hends
    exact hclause body hbody hends.1 hends.2
  split at hrest
  · obtain rfl : _ = choice' := Option.some_inj.mp hrest
    rintro other (hchosen | hfallback)
    · exact hchoice other (.inl hchosen)
    · exact Option.some_inj.mp hfallback ▸ hfits
  · rw [Option.bind_eq_some_iff] at hrest
    obtain ⟨label, -, hrest⟩ := hrest
    split at hrest
    · obtain rfl : _ = choice' := Option.some_inj.mp hrest
      rintro other (hchosen | hfallback)
      · cases hcase : choice.chosen with
        | none =>
            rw [hcase] at hchosen
            exact Option.some_inj.mp hchosen ▸ hfits
        | some first =>
            rw [hcase] at hchosen
            exact hchoice other (.inl (hcase.trans hchosen))
      · exact hchoice other (.inr hfallback)
    · exact Option.some_inj.mp hrest ▸ hchoice
    · rw [Option.bind_eq_some_iff] at hrest
      obtain ⟨_, -, hrest⟩ := hrest
      exact Option.some_inj.mp hrest ▸ hchoice

theorem forall_of_foldlM {P : NodeId → Prop} {clauses : List NodeId}
    (hchoice : ∀ body, choice.chosen = some body ∨ choice.fallback = some body → P body)
    (hclauses : ∀ clause ∈ clauses, ∀ body, s.child? clause .statements = some body →
      endsInBreak s body → breaksEarly s switch body = false → P body)
    (h : clauses.foldlM (consider s switch value) choice = some choice') :
    ∀ body, choice'.chosen = some body ∨ choice'.fallback = some body → P body := by
  induction clauses generalizing choice with
  | nil => exact Option.some_inj.mp h ▸ hchoice
  | cons clause rest ih =>
      rw [List.foldlM_cons, Option.bind_eq_bind, Option.bind_eq_some_iff] at h
      obtain ⟨next, hnext, hrest⟩ := h
      rw [List.forall_mem_cons] at hclauses
      exact ih (forall_of_consider hchoice hclauses.1 hnext) hclauses.2 hrest

/-- What a `switch` comes down to are the statements of one of its clauses, none of which leaves
it before the last one does. -/
theorem clauseBody_of_choice? (h : choice? s switch = some choice)
    (hbody : (choice.chosen <|> choice.fallback) = some body) :
    IsClauseBody s switch body ∧ breaksEarly s switch body = false := by
  simp only [choice?, Option.bind_eq_bind, Option.bind_eq_some_iff] at h
  obtain ⟨value, -, _, -, hfold⟩ := h
  refine forall_of_foldlM
    (P := fun body => IsClauseBody s switch body ∧ breaksEarly s switch body = false)
    (by simp) ?_ hfold body ?_
  · intro clause hclause body hbody hends hearly
    obtain ⟨hmem, hkind⟩ := List.mem_filter.mp hclause
    refine ⟨⟨hends, clause, hmem, ?_, mem_of_child? hbody⟩, hearly⟩
    split at hkind
    · exact .inl ‹_›
    · exact .inr ‹_›
    · cases hkind
  · cases hcase : choice.chosen with
    | none => rw [hcase] at hbody; exact .inr hbody
    | some first => rw [hcase] at hbody; exact .inl hbody

/-- What a `switch` comes down to are the statements of one of its clauses. -/
theorem isClauseBody_of_choice? (h : choice? s switch = some choice)
    (hbody : (choice.chosen <|> choice.fallback) = some body) : IsClauseBody s switch body :=
  (clauseBody_of_choice? h hbody).1

theorem keepsForest_decideSwitch (h : s.Forest) : KeepsForest (decideSwitch id) s := by
  rw [KeepsForest, decideSwitch, gives_bind, gives_get]
  split
  · exact h
  case h_2 choice hchoice =>
      dsimp only
      split
      case h_1 => exact h.removeStatement
      case h_2 statements hstatements =>
          obtain ⟨-, clause, hclause, -, hmem⟩ := isClauseBody_of_choice? hchoice hstatements
          have hmovable := (h.movable_child hclause).of_child h hmem
          -- The statements move once their `break` is gone, which is below them.
          have hmove : ∀ s', Steady {id} s s' →
              ((s'.setRole statements none).replaceStatement id statements).Forest := by
            intro s' hs
            have hrole := hs.trans (steady_setRole hs.forest statements none)
            exact hrole.forest.replaceStatement (hmovable.of_steady hrole)
          split
          case h_1 last hlast =>
              exact hmove _ (steady_remove h (hmovable.of_child h (List.mem_of_getLast? hlast)).off)
          case h_2 => exact hmove s (.refl h)

theorem keepsForest_decideNode (h : s.Forest) : KeepsForest (decideNode id) s := by
  rw [KeepsForest, decideNode, gives_bind, gives_get]
  split
  · exact keepsForest_decideIf h
  · exact keepsForest_decideConditional h
  · exact keepsForest_decideSwitch h
  · exact h

end Branches

theorem keepsForest_removeDeadBranches (h : s.Forest) : KeepsForest removeDeadBranches s := by
  rw [KeepsForest, removeDeadBranches, gives_bind, gives_get]
  exact keepsForest_sweep h fun _ _ hs => Branches.keepsForest_decideNode hs

/-! ### Expressions -/

namespace Expressions

theorem keepsForest_removeParens (h : s.Forest) : KeepsForest (removeParens id) s := by
  rw [KeepsForest, removeParens, gives_bind, gives_get]
  split
  · rw [gives_bind, gives_modify, gives_pure, setParenthesized]
    exact h.modifyHead _
  · exact h

theorem keepsForest_putLiteral (h : s.Forest) (kind : Kind) (payload : Payload) :
    KeepsForest (putLiteral id kind payload) s := by
  rw [KeepsForest, putLiteral, gives_bind, gives_get]
  rcases hadd : s.add { kind, span := s.span id, payload } with ⟨literal, s₁⟩
  obtain ⟨hs, hchildren⟩ := h.built_add (S := ∅) hadd
  exact hs.forest.replace_new hs.loose_new hchildren

theorem keepsForest_foldNegation (h : s.Forest) : KeepsForest (foldNegation id) s := by
  rw [KeepsForest, foldNegation, gives_bind, gives_get]
  split
  · exact h
  · split
    · exact h
    · split
      · exact h
      · split
        · exact h
        · exact keepsForest_putLiteral h _ _

theorem keepsForest_foldLiterals (h : s.Forest) : KeepsForest (foldLiterals id) s := by
  rw [KeepsForest, foldLiterals, gives_bind, gives_get]
  split
  · split
    · rw [foldNumbers, gives_bind, gives_get]
      dsimp only
      split
      · exact h
      · split
        · exact keepsForest_putLiteral h _ _
        · exact h
    · rw [foldStrings, gives_bind, gives_get]
      dsimp only
      split
      · exact keepsForest_putLiteral h _ _
      · exact h
    · exact h
  · exact h

end Expressions

/-! ### Conditions -/

namespace Conditions

variable {condition first second thenPart elsePart target valueA valueB : NodeId}

/-- An edit makes a new node out of nodes that are on no line that matters. -/
def Builds (S : Set NodeId) (m : Edit NodeId) (s : Store) : Prop :=
  Gives m s fun new s' => Built S s s' new

theorem builds_conditional (h : s.Forest) (hcondition : Movable S s condition)
    (hfirst : Movable S s first) (hsecond : Movable S s second) :
    Builds S (conditional condition first second) s := by
  rw [Builds, conditional, gives_bind, gives_get]
  rcases hadd : s.add { kind := .conditional, span := s.span condition } with ⟨new, s₁⟩
  obtain ⟨hs, -⟩ := h.built_add (S := S) hadd
  have hpart : ∀ {s' : Store} {part : NodeId}, Built S s s' new → Movable S s part →
      Built S s ((s'.append new part).setRole part none) new := by
    intro s' part hs' hpart
    refine (hs'.append (hpart.of_steady hs'.toSteady) ?_).setRole _ none
    exact Nat.ne_of_gt (hpart.lt.trans_le hs.size_le_new)
  exact hpart (hpart (hpart hs hcondition) hfirst) hsecond

/-- What was built becomes a statement that takes the place of another one. -/
theorem keepsForest_putExpression (h : s.Forest) (hid : id < s.size)
    (hexpression : Movable {id} s expression) : KeepsForest (putExpression id expression) s := by
  rw [KeepsForest, putExpression, gives_bind, gives_get]
  rcases hwrap : s.wrapExpression expression with ⟨statement, s₁⟩
  exact (h.built_wrapExpression hexpression hwrap).replace h.toLinked hid

theorem keepsForest_mergeReturns (h : s.Forest) (hid : id < s.size)
    (hcondition : Movable {id} s condition) (hfirst : Movable {id} s first)
    (hsecond : Movable {id} s second) :
    KeepsForest (mergeReturns id condition first second) s := by
  rw [KeepsForest, mergeReturns, gives_bind, gives_get]
  dsimp only
  rw [gives_bind]
  refine (builds_conditional h hcondition hfirst hsecond).mono fun value s' hs => ?_
  have hvalue := hs.movable h.toLinked (singleton_lt hid)
  rw [gives_bind, gives_get]
  rcases hadd : s'.add { kind := .returnStmt, span := s.span id } with ⟨statement, s₁⟩
  obtain ⟨hs₁, -⟩ := hs.forest.built_add (S := {id}) hadd
  have hne : statement ≠ value := Nat.ne_of_gt (hvalue.lt.trans_le hs₁.size_le_new)
  have happend := hs₁.append (hvalue.of_steady hs₁.toSteady) hne
  rw [gives_set]
  exact (happend.setRole _ _).replace hs.forest.toLinked (hs.lt hid)

theorem keepsForest_mergeAssignments (h : s.Forest) (hid : id < s.size)
    (hcondition : Movable {id} s condition) (htarget : Movable {id} s target)
    (hvalueA : Movable {id} s valueA) (hvalueB : Movable {id} s valueB) :
    KeepsForest (mergeAssignments id condition first target valueA valueB) s := by
  rw [KeepsForest, mergeAssignments, gives_bind, gives_get, gives_bind]
  refine (builds_conditional h hcondition hvalueA hvalueB).mono fun value s' hs => ?_
  have hlt := singleton_lt hid
  have hvalue := hs.movable h.toLinked hlt
  have htarget' := htarget.of_steady hs.toSteady
  rw [gives_bind, gives_get]
  rcases hadd : s'.add
    { kind := .assign, span := s.span id, assignOp := (s.head first).assignOp } with ⟨assign, s₁⟩
  obtain ⟨hs₁, -⟩ := hs.forest.built_add (S := {id}) hadd
  have hleft := hs₁.append (htarget'.of_steady hs₁.toSteady)
    (Nat.ne_of_gt (htarget'.lt.trans_le hs₁.size_le_new))
  have hright := hleft.append (hvalue.of_steady hleft.toSteady)
    (Nat.ne_of_gt (hvalue.lt.trans_le hs₁.size_le_new))
  rw [gives_bind, gives_set]
  exact keepsForest_putExpression hright.forest (hright.lt (hs.lt hid))
    (hright.movable hs.forest.toLinked fun x hx => hs.lt (hlt x hx))

theorem keepsForest_mergeExpressions (h : s.Forest) (hid : id < s.size)
    (hcondition : Movable {id} s condition) (hfirst : Movable {id} s first)
    (hsecond : Movable {id} s second) :
    KeepsForest (mergeExpressions id condition first second) s := by
  rw [KeepsForest, mergeExpressions, gives_bind, gives_get]
  split
  case h_1 target valueA valueB htarget =>
      simp only [commonTarget?, Option.bind_eq_bind, Option.bind_eq_some_iff] at htarget
      obtain ⟨_, -, x, hx, a, ha, b, hb, heq⟩ := htarget
      obtain ⟨rfl, rfl, rfl⟩ : x = target ∧ a = valueA ∧ b = valueB := by
        simpa [pure] using heq
      exact keepsForest_mergeAssignments h hid hcondition (hfirst.of_child h (mem_of_nth? hx))
        (hfirst.of_child h (mem_of_nth? ha)) (hsecond.of_child h (mem_of_nth? hb))
  case h_2 =>
      rw [gives_bind]
      refine (builds_conditional h hcondition hfirst hsecond).mono fun value s' hs => ?_
      exact keepsForest_putExpression hs.forest (hs.lt hid)
        (hs.movable h.toLinked (singleton_lt hid))

/-- Statements that are on no line of each other or of an anchor move behind the anchor. -/
theorem forest_insertBehind {anchor : NodeId} {statements : List NodeId} (h : s.Forest)
    (hloose : ∀ x ∈ statements, s.Loose x) (hanchor : ∀ x ∈ statements, ¬ s.Within anchor x)
    (hapart : statements.Pairwise fun x y => ¬ s.Within x y ∧ ¬ s.Within y x) :
    (insertBehind anchor statements s).Forest := by
  induction statements generalizing s anchor with
  | nil => exact h
  | cons statement rest ih =>
      rw [List.forall_mem_cons] at hloose hanchor
      rw [List.pairwise_cons] at hapart
      -- The lines of the anchor and of the other statements stay.
      have hmovable : Movable (insert anchor {x | x ∈ rest}) s statement := by
        refine ⟨hloose.1, ?_⟩
        rintro x (rfl | hx)
        · exact hanchor.1
        · exact (hapart.1 x hx).2
      have hinsert := steady_insertAfter h hmovable hanchor.1
      have hs := hinsert.trans (steady_setRole hinsert.forest statement none)
      rw [insertBehind]
      refine ih hs.forest (fun x hx => hs.loose (hloose.2 x hx)) ?_ ?_
      · intro x hx hwithin
        rcases insertAfter_eq_or_parent? anchor hloose.1.lt with heq | ⟨p, hp, hparent⟩
        · rw [heq] at hwithin
          refine (hapart.1 x hx).1 ((within_congr fun z _ => ?_).mp hwithin)
          exact parent?_setRole none
        · rcases hwithin.cases with rfl | ⟨q, hq, hqx⟩
          · exact (hapart.1 _ hx).1 .refl
          · rw [parent?_setRole, hparent, Option.some_inj] at hq
            subst hq
            refine hanchor.2 x hx ((hs.within_iff (.inl rfl)).mp ?_)
            refine (within_of_parent ?_).trans hqx
            rw [hs.parent?_eq (.inl rfl), hp]
      · refine hapart.2.imp_of_mem fun hx hy hxy => ?_
        rwa [hs.within_iff (.inr hx), hs.within_iff (.inr hy)]

theorem keepsForest_liftElse (h : s.Forest) (helse : elsePart ∈ s.children id) :
    KeepsForest (liftElse id thenPart elsePart) s := by
  have hmovable := h.movable_child helse
  have hs : Steady {id} s (s.remove elsePart) := steady_remove h hmovable.off
  rw [KeepsForest, liftElse, gives_bind, gives_get]
  split
  case isFalse => exact h
  case isTrue =>
      split
      case isTrue =>
          split
          case isTrue => exact h
          case isFalse =>
              have hchildren : ∀ c ∈ s.children elsePart, Movable {id} (s.remove elsePart) c :=
                fun c hc => (hmovable.of_child h hc).of_steady hs
              refine forest_insertBehind hs.forest (fun c hc => (hchildren c hc).toLoose)
                (fun c hc => (hchildren c hc).off id rfl) ?_
              refine (h.nodup elsePart).imp_of_mem fun {x y} hx hy hne => ?_
              have hparent : ∀ c ∈ s.children elsePart,
                  (s.remove elsePart).parent? c = some elsePart := by
                intro c hc
                rw [remove, parent?_setRole, parent?_detach, if_neg, h.parent?_of_mem hc]
                rintro rfl
                exact h.not_within_child hc .refl
              exact ⟨hs.forest.not_within_sibling (hparent x hx) (hparent y hy) hne,
                hs.forest.not_within_sibling (hparent y hy) (hparent x hx) hne.symm⟩
      case isFalse =>
          have helse' := hmovable.of_steady hs
          refine forest_insertBehind hs.forest ?_ ?_ (List.pairwise_singleton _ _)
          · exact List.forall_mem_singleton.mpr helse'.toLoose
          · exact List.forall_mem_singleton.mpr (helse'.off id rfl)

theorem builds_copyPlain {source : NodeId} (h : s.Forest) (hid : id < s.size) :
    Builds {id} (copyPlain source) s := by
  rw [Builds, copyPlain, gives_bind, gives_get]
  rcases hcopy : s.copy source with ⟨copy, s₁⟩
  exact (h.built_graft (singleton_lt hid) hcopy).setRole _ none

theorem keepsForest_toLogical (h : s.Forest) (hid : id < s.size) :
    KeepsForest (toLogical id condition thenPart) s := by
  rw [KeepsForest, toLogical, gives_bind, gives_get]
  split
  case h_2 => exact h
  case h_1 expression kind left _ _ =>
      rw [gives_bind]
      refine (builds_copyPlain h hid).mono fun leftCopy s₁ hs₁ => ?_
      rw [gives_bind]
      refine (builds_copyPlain hs₁.forest (hs₁.lt hid)).mono fun rightCopy s₂ hs₂ => ?_
      have hleft := (hs₁.movable h.toLinked (singleton_lt hid)).of_steady hs₂.toSteady
      have hright := hs₂.movable hs₁.forest.toLinked (singleton_lt (hs₁.lt hid))
      have hid₂ := hs₂.lt (hs₁.lt hid)
      rw [gives_bind, gives_get]
      rcases hadd : s₂.add { kind, span := s.span id } with ⟨logical, s₃⟩
      obtain ⟨hs₃, -⟩ := hs₂.forest.built_add (S := {id}) hadd
      have hone := hs₃.append (hleft.of_steady hs₃.toSteady)
        (Nat.ne_of_gt (hleft.lt.trans_le hs₃.size_le_new))
      have htwo := hone.append (hright.of_steady hone.toSteady)
        (Nat.ne_of_gt (hright.lt.trans_le hs₃.size_le_new))
      dsimp only
      rcases hwrap : ((s₃.append logical leftCopy).append logical rightCopy).wrapExpression logical
        with ⟨statement, s₄⟩
      have hlogical := htwo.movable hs₂.forest.toLinked (singleton_lt hid₂)
      have hs₄ := htwo.forest.built_wrapExpression hlogical hwrap
      rw [gives_bind, gives_set]
      split
      · exact hs₄.replace htwo.forest.toLinked (htwo.lt hid₂)
      · exact hs₄.forest

theorem keepsForest_reduceBranches (h : s.Forest) (hcondition : condition ∈ s.children id)
    (hthen : thenPart ∈ s.children id) (helse : elsePart ∈ s.children id) :
    KeepsForest (reduceBranches id condition thenPart elsePart) s := by
  have hid : id < s.size := lt_of_mem_children hcondition
  have hcondition' := h.movable_child hcondition
  rw [KeepsForest, reduceBranches, gives_bind, gives_get]
  split
  case h_1 first second hvalues =>
      simp only [returnedValues?, Option.bind_eq_bind, Option.bind_eq_some_iff] at hvalues
      obtain ⟨_, -, a, ha, b, hb, heq⟩ := hvalues
      obtain ⟨rfl, rfl⟩ : a = first ∧ b = second := by simpa [pure] using heq
      rw [gives_bind]
      exact keepsForest_mergeReturns h hid hcondition'
        ((h.movable_child hthen).of_child h (mem_of_child? ha))
        ((h.movable_child helse).of_child h (mem_of_child? hb))
  case h_2 =>
      split
      case h_1 first second hvalues =>
          simp only [branchExpressions?, Option.bind_eq_bind, Option.bind_eq_some_iff] at hvalues
          obtain ⟨a, ha, b, hb, heq⟩ := hvalues
          obtain ⟨rfl, rfl⟩ : a = first ∧ b = second := by simpa [pure] using heq
          rw [gives_bind]
          exact keepsForest_mergeExpressions h hid hcondition'
            ((h.movable_child hthen).of_child h (mem_of_expressionOf? ha))
            ((h.movable_child helse).of_child h (mem_of_expressionOf? hb))
      case h_2 => exact keepsForest_liftElse h helse

theorem keepsForest_reduceIf (h : s.Forest) : KeepsForest (reduceIf id) s := by
  rw [KeepsForest, reduceIf, gives_bind, gives_get]
  split
  case h_1 condition thenPart hcondition hthen =>
      split
      case h_1 elsePart helse =>
          exact keepsForest_reduceBranches h (mem_of_child? hcondition) (mem_of_child? hthen)
            (mem_of_child? helse)
      case h_2 => exact keepsForest_toLogical h (lt_of_mem_children (mem_of_child? hcondition))
  case h_2 => exact h

end Conditions

/-! ### Blocks -/

namespace Blocks

variable {list previous current first second comma : NodeId} {rest : List NodeId}

theorem keepsForest_dissolve (h : s.Forest) : KeepsForest (dissolve id) s := by
  rw [KeepsForest, dissolve, gives_bind, gives_get]
  split
  · split
    · rw [gives_bind, gives_modify]
      exact h.remove
    · exact h
  · split
    · exact h
    · rw [gives_bind, gives_modify]
      exact h.spliceBefore fun c hc => h.not_within_child hc
  · exact h

/-- The comma expression around a child is a child itself, and lines above the child stay. -/
theorem gives_commaAround (h : s.Forest) (hparent : s.parent? first = some previous)
    (hfirst : Movable S s first) (hprevious : previous ∈ S) (hlt : ∀ x ∈ S, x < s.size) :
    Gives (commaAround first) s fun comma s' =>
      Steady S s s' ∧ s'.parent? comma = some previous ∧ (comma = first ∨ s.size ≤ comma) := by
  rw [commaAround, gives_bind, gives_get]
  split
  · exact ⟨.refl h, hparent, .inl rfl⟩
  · rcases hadd : s.add { kind := .comma, span := s.span first } with ⟨comma, s₁⟩
    obtain ⟨hs₁, hchildren⟩ := h.built_add (S := insert first S) hadd
    have hne : comma ≠ first := Nat.ne_of_gt (hfirst.lt.trans_le hs₁.size_le_new)
    have hcomma := hs₁.movable h.toLinked (by
      rintro x (rfl | hx)
      · exact hfirst.lt
      · exact hlt x hx)
    have hs₁' : Steady S s s₁ := hs₁.toSteady.mono (Set.subset_insert _ _)
    have hfirst₁ := hfirst.of_steady hs₁'
    have hparent₁ : s₁.parent? first = some previous := by
      rw [hs₁.toSteady.parent?_eq (.inl rfl), hparent]
    -- The new comma expression takes the place of the expression.
    have hreplace : Steady S s₁ (s₁.replace first comma) :=
      steady_replace hs₁.forest hparent₁ hfirst₁.off
        ⟨hcomma.toLoose, fun x hx => hcomma.off x (.inr hx)⟩ (hcomma.off first (.inl rfl))
    have hparent₂ : (s₁.replace first comma).parent? comma = some previous := by
      rw [parent?_replace hne.symm hcomma.lt, if_pos rfl, hparent₁]
    have hfirst₂ := hfirst₁.of_steady hreplace
    -- Then the expression, which is not on its line, becomes its child.
    have hoff : ¬ (s₁.replace first comma).Within comma first := by
      intro hwithin
      rcases hwithin.cases with heq | ⟨p, hp, hpf⟩
      · exact hne heq
      · rw [hparent₂, Option.some_inj] at hp
        exact hfirst₂.off p (hp ▸ hprevious) hpf
    have happend := steady_append hreplace.forest
      (by rw [size_replace]; exact hcomma.lt) hfirst₂ hoff
    have hrole := happend.trans (steady_setRole happend.forest first none)
    refine ⟨hs₁'.trans (hreplace.trans hrole), ?_, .inr hs₁.size_le_new⟩
    change (((s₁.replace first comma).append comma first).setRole first none).parent? comma = _
    rw [parent?_setRole, parent?_append hfirst₂.lt, if_neg hne, hparent₂]

theorem steady_extendComma (h : s.Forest) (hcomma : comma < s.size)
    (hsecond : Movable (insert comma S) s second) : Steady S s (extendComma comma second s) := by
  rw [extendComma]
  split
  · refine (steady_foldl (S := insert comma S) _ _ h fun c hc s' hs => ?_).mono
      (Set.subset_insert _ _)
    have hpart := (hsecond.of_child h hc).of_steady hs
    exact steady_append hs.forest (hs.lt hcomma) hpart (hpart.off comma (.inl rfl))
  · have happend := steady_append h hcomma hsecond (hsecond.off comma (.inl rfl))
    exact (happend.trans (steady_setRole happend.forest _ none)).mono (Set.subset_insert _ _)

/-- A statement is merged into the one before it, and the lines of the others stay. -/
theorem gives_merge (h : s.Forest) (hids : Siblings s list (previous :: current :: rest))
    (hfirst : first ∈ s.children previous) (hsecond : second ∈ s.children current) :
    Gives (commaAround first) s fun comma s' =>
      Steady {x | x ∈ previous :: rest} s ((extendComma comma second s').remove current) := by
  -- Neither expression is on the line of a statement that stays.
  have hfirst' : Movable {x | x ∈ previous :: current :: rest} s first := by
    have hchild := h.movable_child hfirst
    refine ⟨hchild.toLoose, fun x hx => ?_⟩
    rcases List.mem_cons.mp hx with rfl | hx
    · exact hchild.off _ rfl
    · exact h.not_within_of_child ((hids.movable h).off x hx) hfirst
  have hcurrent : Movable {x | x ∈ previous :: rest} s current :=
    (hids.perm (.swap current previous rest)).movable h
  have hsecond' := hcurrent.of_child h hsecond
  refine Gives.mono (gives_commaAround h (h.parent?_of_mem hfirst) hfirst' List.mem_cons_self
    fun x hx => parent?_lt (hids.parent x hx)) ?_
  rintro comma s₁ ⟨hs₁, hcomma, hwhich⟩
  replace hs₁ : Steady {x | x ∈ previous :: rest} s s₁ :=
    hs₁.mono fun x hx => (List.Sublist.cons_cons _ (List.sublist_cons_self _ _)).subset hx
  have hoff : ¬ s₁.Within comma second := by
    intro hwithin
    rcases hwithin.cases with rfl | ⟨p, hp, hpx⟩
    · rcases hwhich with rfl | hle
      · have hsame := (h.parent?_of_mem hfirst).symm.trans (h.parent?_of_mem hsecond)
        rw [Option.some_inj] at hsame
        exact (List.nodup_cons.mp hids.nodup).1 (hsame ▸ List.mem_cons_self)
      · exact absurd hsecond'.lt (Nat.not_lt.mpr hle)
    · rw [hcomma, Option.some_inj] at hp
      exact (hsecond'.of_steady hs₁).off p (hp ▸ List.mem_cons_self) hpx
  have hextend : Steady {x | x ∈ previous :: rest} s₁ (extendComma comma second s₁) := by
    refine steady_extendComma hs₁.forest (parent?_lt hcomma) ⟨hs₁.loose hsecond'.toLoose, ?_⟩
    rintro x (rfl | hx)
    · exact hoff
    · exact (hsecond'.of_steady hs₁).off x hx
  have hboth := hs₁.trans hextend
  exact hboth.trans (steady_remove hextend.forest (hcurrent.of_steady hboth).off)

theorem keepsForest_mergeInto (h : s.Forest) (hids : Siblings s list (previous :: rest)) :
    KeepsForest (mergeInto previous rest) s := by
  induction rest generalizing s previous with
  | nil => exact h
  | cons current rest ih =>
      rw [KeepsForest, mergeInto, gives_bind, gives_get]
      split
      case h_2 => exact ih h (hids.sublist (List.sublist_cons_self _ _))
      case h_1 first second hfirst hsecond =>
          rw [gives_bind]
          refine Gives.mono (gives_merge h hids (mem_of_expressionOf? hfirst)
            (mem_of_expressionOf? hsecond)) fun comma s' hs => ?_
          rw [gives_bind, gives_modify, gives_bind]
          refine ih hs.forest (Siblings.of_steady (hids.sublist ?_) hs)
          exact List.Sublist.cons_cons _ (List.sublist_cons_self _ _)

theorem keepsForest_reduceList (h : s.Forest) : KeepsForest (reduceList list) s := by
  rw [KeepsForest, reduceList, gives_bind, gives_get, gives_bind]
  refine Gives.mono (keepsForest_sweep h fun _ _ hs => keepsForest_dissolve hs) fun _ s' hs => ?_
  rw [gives_bind, gives_get]
  split
  · exact hs
  case h_2 first rest hlist =>
      rw [gives_bind]
      exact keepsForest_mergeInto hs (hlist ▸ siblings_children hs list)

theorem keepsForest_collapse (h : s.Forest) : KeepsForest (collapse id) s := by
  rw [KeepsForest, collapse, gives_bind, gives_get]
  split
  · exact h
  · split
    · rcases hadd : s.add { kind := .semicolon, span := s.span id } with ⟨empty, s₁⟩
      obtain ⟨hs, hchildren⟩ := h.built_add (S := ∅) hadd
      exact hs.forest.replace_new hs.loose_new hchildren
    case h_2 statement hchildren =>
        refine gives_ite (fun _ => h) fun _ => ?_
        rw [gives_bind, gives_modify]
        exact h.replace_child (by rw [hchildren]; exact List.mem_singleton_self _)
    case h_3 => exact h

theorem keepsForest_reduceForm (h : s.Forest) : KeepsForest (reduceForm id) s := by
  rw [KeepsForest, reduceForm, gives_bind, gives_get]
  split
  · exact keepsForest_reduceList h
  · rw [gives_bind]
    refine Gives.mono (keepsForest_reduceList h) fun _ s' hs => ?_
    rw [gives_bind]
    exact Gives.mono (keepsForest_collapse hs) fun _ s'' hs' => hs'
  · exact Conditions.keepsForest_reduceIf h
  · exact Expressions.keepsForest_foldNegation h
  · split
    · exact Expressions.keepsForest_foldLiterals h
    · exact h

theorem keepsForest_reduceNode (h : s.Forest) : KeepsForest (reduceNode id) s := by
  refine (Expressions.keepsForest_removeParens h).bind fun _ s' hs => ?_
  exact (keepsForest_reduceForm hs).bind fun _ s'' hs' => hs'

end Blocks

theorem keepsForest_reduceBlocks (h : s.Forest) : KeepsForest reduceBlocks s := by
  rw [KeepsForest, reduceBlocks, gives_bind, gives_get]
  exact keepsForest_sweep h fun _ _ hs => Blocks.keepsForest_reduceNode hs

end ScriptMin
