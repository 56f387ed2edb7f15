import ScriptMin.Proofs.Pass.Placing
import ScriptMin.Proofs.Pass.ReductionForests

/-!
The passes that reduce statements and expressions leave jumps in order: the removal of branches
that are never taken, and the reduction of blocks, conditions and operations on literals. What
takes the place of a node comes from below it, where more is allowed, or is new. The clause that
is left of a `switch` is the one case where less is around than before.
-/

namespace ScriptMin

open Store Edit

variable {s s' : Store} {id expression : NodeId} {C : Plan} {X Y : Reach} {h : Head}

/-! ### Branches -/

namespace Reach

/-- A reach in which `break` without a name has lost its target. -/
def untargeted (X : Reach) : Reach := { X with breaks := false }

theorem untargeted_le : X.untargeted ≤ X :=
  ⟨nofun, id, id, rfl, List.Subset.refl _, List.Subset.refl _, id⟩

/-- What is below a construct loses its target with it. -/
theorem untargeted_le_inside (hle : Y ≤ X.inside h) : Y.untargeted ≤ X.untargeted.inside h := by
  have hrest : X.untargeted.inside h =
      { X.inside h with breaks := (X.untargeted.inside h).breaks } := by
    simp only [inside]
    split
    · rfl
    · split <;> rfl
  rw [hrest]
  exact ⟨(Bool.noConfusion ·), hle.continues, hle.returns, hle.labels, hle.loops, hle.own,
    hle.valued⟩

/-- What is inside a target, or a function, does not need one around. -/
theorem inside_untargeted (hkind : Branches.breakTargets.contains h.kind) :
    X.untargeted.inside h = X.inside h := by
  simp only [inside]
  split
  · rfl
  · split
    case h_1 => rfl
    case h_2 hlabel => simp [hlabel, Branches.breakTargets] at hkind
    case h_3 => rfl
    case h_4 => cases hcase : h.kind <;> simp_all [Branches.breakTargets, Kind.isLoop]

end Reach

/-- Only `break` without a name can lose its target. -/
theorem Head.FitsIn.untargeted (hfits : h.FitsIn X) (hkind : h.kind = .breakStmt → h.text? ≠ none) :
    h.FitsIn X.untargeted :=
  { hfits with plainBreak := fun hbreak htext => absurd htext (hkind hbreak) }

namespace Branches

variable {switch clause body last : NodeId}

/-- A `break` without a name that is in the place of a node leaves a `switch`. -/
def Leaves (s : Store) (switch id : NodeId) : Prop :=
  ∃ p, s.parent? id = some p ∧ s.Nearest breakTargets p switch

open Classical in
/-- The plan that takes a `switch` away from what is within one of its clauses. -/
noncomputable def curb (s : Store) (switch body : NodeId) (C : Plan) : Plan := fun id =>
  if s.Within id body ∧ Leaves s switch id then (C id).untargeted else C id

theorem curb_of_leaves (hwithin : s.Within id body) (hleaves : Leaves s switch id) :
    curb s switch body C id = (C id).untargeted :=
  if_pos ⟨hwithin, hleaves⟩

theorem curb_of_not_leaves (hid : ¬ (s.Within id body ∧ Leaves s switch id)) :
    curb s switch body C id = C id :=
  if_neg hid

theorem curb_le : curb s switch body C id ≤ C id := by
  rw [curb]
  split
  · exact Reach.untargeted_le
  · exact le_refl _

theorem valued_curb : (curb s switch body C id).valued = (C id).valued := by
  rw [curb]
  split <;> rfl

theorem curb_le_inside (h : Planned C s) {c p : NodeId} (hp : s.parent? c = some p) :
    curb s switch body C c ≤ (curb s switch body C p).inside (s.head p) := by
  by_cases hparent : s.Within p body ∧ Leaves s switch p
  · obtain ⟨hwithin, q, hq, hnear⟩ := hparent
    have hc : s.Within c body := (within_of_parent hp).trans hwithin
    rw [curb_of_leaves hwithin ⟨q, hq, hnear⟩]
    -- Below a construct that is no target, what leaves the construct leaves the `switch`.
    cases htarget : breakTargets.contains (s.kind p) with
    | false =>
        rw [curb_of_leaves hc ⟨p, hp, .above htarget hq hnear⟩]
        exact Reach.untargeted_le_inside (h.below hp)
    | true =>
        rw [Reach.inside_untargeted htarget]
        exact curb_le.trans (h.below hp)
  · rw [curb_of_not_leaves hparent]
    exact curb_le.trans (h.below hp)

/-- A `switch` can be taken away from a clause in which nothing leaves it. -/
theorem planned_curb (h : Planned C s) (switch body : NodeId) (hbreaks : ∀ id, s.Within id body →
    Leaves s switch id → s.kind id = .breakStmt → s.text? id ≠ none) :
    Planned (curb s switch body C) s where
  parent_lt := h.parent_lt
  admits := h.admits
  around hp := Reach.le_around (curb_le_inside h hp) fun hvalues =>
    valued_curb.trans (h.valued hp hvalues)
  fits id hid := by
    rw [curb]
    split
    case isTrue hcase => exact (h.fits id hid).untargeted (hbreaks id hcase.1 hcase.2)
    case isFalse => exact h.fits id hid
  root := ⟨h.root.lt, curb_le.trans h.root.le, h.root.kind⟩

/-- Without the `switch`, a clause in it is allowed where the `switch` is. -/
theorem curb_body_le (h : Planned C s) (hs : s.Forest) (hswitch : s.kind switch = .switchCase)
    (hclause : s.parent? clause = some switch)
    (hkind : s.kind clause = .caseClause ∨ s.kind clause = .defaultClause)
    (hbody : s.parent? body = some clause) :
    curb s switch body C body ≤ curb s switch body C switch := by
  have hleaves : Leaves s switch body := by
    refine ⟨clause, hbody, .above ?_ hclause (.here ?_)⟩
    · rcases hkind with hkind | hkind <;> rw [hkind] <;> rfl
    · rw [hswitch]
      rfl
  have hout : ¬ s.Within switch body := fun hwithin =>
    hs.acyclic body clause hbody ((within_of_parent hclause).trans hwithin)
  rw [curb_of_leaves .refl hleaves, curb_of_not_leaves fun hcase => hout hcase.1]
  have hinside : C body ≤ (C clause).idle := by
    refine (h.below hbody).trans_eq (Reach.inside_of_isNeutral ?_)
    rcases hkind with hkind | hkind
    all_goals
      rw [show (s.head clause).kind = _ from hkind]
      rfl
  have hclause' : C clause ≤ { C switch with breaks := true, own := [] } := by
    refine (h.below hclause).trans_eq ?_
    rw [Reach.inside, show (s.head switch).kind = _ from hswitch]
    rfl
  have hle := (hinside.trans Reach.idle_le).trans hclause'
  exact ⟨(Bool.noConfusion ·), hle.continues, hle.returns, hle.labels, hle.loops,
    List.Subset.trans hle.own (List.nil_subset _), hle.valued⟩

/-! The last `break` of a clause is gone before the clause moves. -/

theorem parent?_of_remove {c p : NodeId} (hp : (s.remove last).parent? c = some p) :
    c ≠ last ∧ s.parent? c = some p := by
  rw [remove, parent?_setRole, parent?_detach] at hp
  split at hp
  · cases hp
  · exact ⟨‹_›, hp⟩

theorem kind_remove : (s.remove last).kind id = s.kind id := by
  rw [kind, remove, setRole, head_modifyHead, head_detach]
  split <;> rfl

theorem text?_remove : (s.remove last).text? id = s.text? id := by
  rw [text?, remove, setRole, head_modifyHead, head_detach]
  split <;> rfl

theorem within_of_remove {x y : NodeId} (h : (s.remove last).Within x y) : s.Within x y :=
  Relation.ReflTransGen.mono (fun _ _ hp => (parent?_of_remove hp).2) x y h

theorem nearest_of_remove {x y : NodeId} {kinds : List Kind}
    (h : (s.remove last).Nearest kinds x y) : s.Nearest kinds x y := by
  induction h with
  | here mem => exact .here (by rwa [kind_remove] at mem)
  | above not_mem link _ ih =>
      exact .above (by rwa [kind_remove] at not_mem) (parent?_of_remove link).2 ih

/-- Once the last `break` of a clause is gone, no other one in it leaves the `switch`. -/
theorem text?_of_leaves (h : Planned C s) (hs : s.Forest)
    (hlast : (s.children body).getLast? = some last)
    (hearly : breaksEarly s switch body = false) (hwithin : (s.remove last).Within id body)
    (hleaves : Leaves (s.remove last) switch id) (hkind : (s.remove last).kind id = .breakStmt) :
    (s.remove last).text? id ≠ none := by
  rw [kind_remove] at hkind
  rw [text?_remove]
  intro htext
  obtain ⟨p, hp, hnear⟩ := hleaves
  rcases Relation.ReflTransGen.cases_tail hwithin with rfl | ⟨c, hbelow, hc⟩
  · -- The clause has a child, and a `break` has none.
    have hparent := hs.parent?_of_mem (List.mem_of_getLast? hlast)
    exact (h.admits hparent).jump hkind
  · obtain ⟨hne, hparent⟩ := parent?_of_remove hc
    have hmem : c ∈ (s.children body).dropLast := by
      have hchild := (hs.linked body c).mpr hparent
      rw [← List.dropLast_append_getLast? last hlast, List.mem_append, List.mem_singleton] at hchild
      exact hchild.resolve_right hne
    have hfound : s.ancestor? id breakTargets = some switch := by
      refine hs.ancestor?_eq_some (.above ?_ (parent?_of_remove hp).2 (nearest_of_remove hnear))
      rw [hkind]
      rfl
    have htrue : breaksEarly s switch body = true := by
      refine List.any_eq_true.mpr ⟨c, hmem, List.any_eq_true.mpr ⟨id, ?_, ?_⟩⟩
      · exact hs.mem_descendants (within_of_remove hbelow)
      · rw [isPlainBreak, hkind, htext, hfound]
        simp
    rw [hearly] at htrue
    cases htrue

theorem keepsPlan_decideIf (h : s.Ordered) (hkind : s.kind id = .ifElse) :
    KeepsPlan (decideIf id) s := by
  obtain ⟨C, hC⟩ := h.arranged
  rw [KeepsPlan, decideIf, gives_bind, gives_get]
  split
  · exact .refl h.arranged
  · dsimp only
    split
    case h_1 branch hbranch =>
        have hmem := mem_of_child? hbranch
        have hle := hC.le_of_mem h.toLinked (by rw [hkind]; rfl) hmem
        exact (hC.replaceStatement h.toLinked (h.child_lt hmem) (hle.trans Reach.idle_le)
          (replaceable_of_kind (by rw [hkind]; rfl))).rearranged
    case h_2 => exact hC.removeStatement (replaceable_of_kind (by rw [hkind]; rfl))

theorem keepsPlan_decideConditional (h : s.Ordered) (hkind : s.kind id = .conditional) :
    KeepsPlan (decideConditional id) s := by
  obtain ⟨C, hC⟩ := h.arranged
  rw [KeepsPlan, decideConditional, gives_bind, gives_get]
  split
  · exact .refl h.arranged
  · split
    · exact .refl h.arranged
    case h_2 branch hbranch =>
        have hvalue := hC.value_of_mem h.toLinked (by rw [hkind]; rfl) (mem_of_nth? hbranch)
        exact (hC.replace_of_not_isFixed hvalue.lt (hvalue.le.trans Reach.idle_le)
          (by rw [hkind]; rfl) fun _ => hvalue.isExpression).rearranged

theorem keepsPlan_decideSwitch (h : s.Ordered) (hkind : s.kind id = .switchCase) :
    KeepsPlan (decideSwitch id) s := by
  obtain ⟨C, hC⟩ := h.arranged
  rw [KeepsPlan, decideSwitch, gives_bind, gives_get]
  split
  · exact .refl h.arranged
  case h_2 choice hchoice =>
      dsimp only
      split
      case h_1 => exact hC.removeStatement (replaceable_of_kind (by rw [hkind]; rfl))
      case h_2 body hbody =>
          obtain ⟨⟨hends, clause, hclause, hclauseKind, hmem⟩, hearly⟩ :=
            clauseBody_of_choice? hchoice hbody
          split
          case h_2 hnone => simp [endsInBreak, hnone] at hends
          case h_1 last hlast =>
              have hforest : (s.remove last).Forest := h.toForest.remove
              have hlink : ∀ {c p}, c ≠ last → c ∈ s.children p →
                  (s.remove last).parent? c = some p := fun hne hc => by
                rw [remove, parent?_setRole, parent?_detach, if_neg hne, h.parent?_of_mem hc]
              have hbodyNe : body ≠ last := fun heq => h.toForest.not_within_child
                (List.mem_of_getLast? hlast) (heq ▸ .refl)
              have hclauseNe : clause ≠ last := fun heq => h.toForest.not_within_child
                (List.mem_of_getLast? hlast) (heq ▸ within_of_parent (h.parent?_of_mem hmem))
              -- The plan without the `switch` holds as soon as the `break` is gone.
              have hcurb := planned_curb hC.remove.planned id body
                fun x hwithin hleaves hbreak =>
                  text?_of_leaves hC h.toForest hlast hearly hwithin hleaves hbreak
              have hle := curb_body_le hC.remove.planned hforest (by rw [kind_remove, hkind])
                (hlink hclauseNe hclause) (by simpa only [kind_remove] using hclauseKind)
                (hlink hbodyNe hmem)
              have hrole : Extends _ _ _ ((s.remove last).setRole body none) := hcurb.dropRole
              refine hC.remove.rearranged.trans (hrole.trans (hrole.planned.replaceStatement
                (hforest.setRole none).toLinked (hrole.lt (parent?_lt (hlink hbodyNe hmem))) hle
                ?_)).rearranged
              refine replaceable_of_kind ?_
              rw [hrole.kind_eq (hforest.parent_lt (hlink hclauseNe hclause)), kind_remove, hkind]
              rfl

theorem keepsOrder_decideNode (h : s.Ordered) : KeepsOrder (decideNode id) s := by
  refine (keepsForest_decideNode h.toForest).keepsOrder ?_
  rw [KeepsPlan, decideNode, gives_bind, gives_get]
  split
  · exact keepsPlan_decideIf h ‹_›
  · exact keepsPlan_decideConditional h ‹_›
  · exact keepsPlan_decideSwitch h ‹_›
  · exact .refl h.arranged

end Branches

theorem keepsOrder_removeDeadBranches (h : s.Ordered) : KeepsOrder removeDeadBranches s := by
  rw [KeepsOrder, removeDeadBranches, gives_bind, gives_get]
  exact keepsOrder_sweep h fun _ _ _ hs _ => Branches.keepsOrder_decideNode hs

/-! ### Expressions -/

namespace Expressions

theorem keepsPlan_removeParens (h : s.Ordered) : KeepsPlan (removeParens id) s := by
  obtain ⟨C, hC⟩ := h.arranged
  rw [KeepsPlan, removeParens, gives_bind, gives_get]
  split
  · rw [gives_bind, gives_modify]
    exact (hC.setParenthesized false).rearranged
  · exact .refl h.arranged

theorem keepsPlan_putLiteral (h : s.Ordered) (hid : (s.kind id).isFixed = false) {kind : Kind}
    (hkind : kind.isStatement = false) (hbound : kind.isBound = false) (payload : Payload) :
    KeepsPlan (putLiteral id kind payload) s := by
  obtain ⟨C, hC⟩ := h.arranged
  rw [KeepsPlan, putLiteral, gives_bind, gives_get]
  rcases hadd : s.add { kind, span := s.span id, payload } with ⟨literal, s₁⟩
  obtain ⟨C', hmade⟩ := hC.made_add (X := C id) (Head.fitsIn_of_not_isBound hbound) hadd
  exact (hmade.replace (le_refl _) hid fun _ => hkind).rearranged

theorem keepsPlan_foldNegation (h : s.Ordered) (hid : (s.kind id).isFixed = false) :
    KeepsPlan (foldNegation id) s := by
  rw [KeepsPlan, foldNegation, gives_bind, gives_get]
  split
  · exact .refl h.arranged
  · split
    · exact .refl h.arranged
    · split
      · exact .refl h.arranged
      · split
        · exact .refl h.arranged
        · exact keepsPlan_putLiteral h hid rfl rfl _

theorem keepsPlan_foldLiterals (h : s.Ordered) (hid : (s.kind id).isFixed = false) :
    KeepsPlan (foldLiterals id) s := by
  rw [KeepsPlan, foldLiterals, gives_bind, gives_get]
  split
  · split
    · rw [foldNumbers, gives_bind, gives_get]
      dsimp only
      split
      · exact .refl h.arranged
      · split
        · exact keepsPlan_putLiteral h hid rfl rfl _
        · exact .refl h.arranged
    · rw [foldStrings, gives_bind, gives_get]
      dsimp only
      split
      · exact keepsPlan_putLiteral h hid rfl rfl _
      · exact .refl h.arranged
    · exact .refl h.arranged
  · exact .refl h.arranged

end Expressions

/-! ### Conditions -/

namespace Conditions

variable {condition first second thenPart elsePart target valueA valueB : NodeId}

theorem gives_conditional (h : Planned C s) (hcondition : Value C s X.idle condition)
    (hfirst : Value C s X.idle first) (hsecond : Value C s X.idle second) :
    Gives (conditional condition first second) s fun new s' =>
      ∃ C', Made C s .conditional X.value C' s' new := by
  rw [conditional, gives_bind, gives_get]
  rcases hadd : s.add { kind := .conditional, span := s.span condition } with ⟨new, s₁⟩
  obtain ⟨C', hmade⟩ := h.made_add (X := X.value) (Head.fitsIn_of_not_isBound rfl) hadd
  have hpart : ∀ {s' : Store} {part : NodeId}, Made C s .conditional X.value C' s' new →
      Value C s X.idle part →
      Made C s .conditional X.value C' ((s'.append new part).setRole part none) new := by
    intro s' part hs' hpart
    exact (hs'.append rfl (hpart.value.of_extends hs'.toExtends)).dropRole part
  exact ⟨C', hpart (hpart (hpart hmade hcondition) hfirst) hsecond⟩

/-- A value becomes a statement that takes the place of another one. -/
theorem keepsPlan_putExpression (h : Planned C s) (hid : s.Replaceable id)
    (hexpression : Value C s (C id).idle expression) :
    KeepsPlan (putExpression id expression) s := by
  rw [KeepsPlan, putExpression, gives_bind, gives_get]
  rcases hwrap : s.wrapExpression expression with ⟨statement, s₁⟩
  obtain ⟨C', hmade⟩ := h.made_wrapExpression (X := C id) hexpression hwrap
  exact hmade.replaceStatement (le_refl _) hid

theorem keepsPlan_mergeReturns (h : Planned C s) (hid : s.Replaceable id)
    (hreturns : (C id).returns) (hcondition : Value C s (C id).idle condition)
    (hfirst : Value C s (C id).idle first) (hsecond : Value C s (C id).idle second) :
    KeepsPlan (mergeReturns id condition first second) s := by
  rw [KeepsPlan, mergeReturns, gives_bind, gives_get]
  dsimp only
  rw [gives_bind]
  refine (gives_conditional (X := (C id).idle) h hcondition hfirst hsecond).mono ?_
  rintro value s₁ ⟨C₁, hvalue⟩
  rw [gives_bind, gives_get]
  rcases hadd : s₁.add { kind := .returnStmt, span := s.span id } with ⟨statement, s₂⟩
  have hfits : Head.FitsIn { kind := .returnStmt, span := s.span id } (C id) :=
    ⟨by simp, by simp, by simp, by simp, by simp, fun _ => hreturns, by simp [Kind.isUnvalued]⟩
  obtain ⟨C₂, hmade⟩ := hvalue.planned.made_add hfits hadd
  have hid₁ := hid.of_extends hvalue.toExtends
  have hplan := hvalue.plan_eq id hid.lt
  have happend := hmade.appendAs rfl .value (by simp)
    ((hvalue.value rfl).of_extends hmade.toExtends)
  rw [gives_set]
  exact hvalue.rearranged.trans (happend.replaceStatement (le_of_eq hplan.symm) hid₁)

theorem keepsPlan_mergeAssignments (h : Planned C s) (hid : s.Replaceable id)
    (hcondition : Value C s (C id).idle condition) (htarget : Value C s (C id).idle target)
    (hvalueA : Value C s (C id).idle valueA) (hvalueB : Value C s (C id).idle valueB) :
    KeepsPlan (mergeAssignments id condition first target valueA valueB) s := by
  rw [KeepsPlan, mergeAssignments, gives_bind, gives_get, gives_bind]
  refine (gives_conditional (X := (C id).idle) h hcondition hvalueA hvalueB).mono ?_
  rintro value s₁ ⟨C₁, hvalue⟩
  rw [gives_bind, gives_get]
  rcases hadd : s₁.add
    { kind := .assign, span := s.span id, assignOp := (s.head first).assignOp } with ⟨assign, s₂⟩
  obtain ⟨C₂, hmade⟩ := hvalue.planned.made_add (X := (C id).idle.value)
    (Head.fitsIn_of_not_isBound rfl) hadd
  have htarget₂ := (htarget.of_extends hvalue.toExtends).of_extends hmade.toExtends
  have hleft := hmade.append rfl htarget₂.value
  have hright := hleft.append rfl ((hvalue.value rfl).value.of_extends hleft.toExtends)
  have hs := hvalue.toExtends.trans hright.toExtends
  have hid₂ := hid.of_extends hs
  have hplan := hs.plan_eq id hid.lt
  rw [gives_bind, gives_set]
  refine (keepsPlan_putExpression hs.planned hid₂ ?_).mono fun _ _ hs' => hs.rearranged.trans hs'
  rw [hplan]
  exact hright.value rfl

theorem keepsPlan_mergeExpressions (h : Planned C s) (hs : s.Linked)
    (hid : s.Replaceable id) (hcondition : Value C s (C id).idle condition)
    (hfirst : Value C s (C id).idle first) (hsecond : Value C s (C id).idle second) :
    KeepsPlan (mergeExpressions id condition first second) s := by
  rw [KeepsPlan, mergeExpressions, gives_bind, gives_get]
  split
  case h_1 target valueA valueB htarget =>
      simp only [commonTarget?, Option.bind_eq_bind, Option.bind_eq_some_iff] at htarget
      obtain ⟨_, hguard, x, hx, a, ha, b, hb, heq⟩ := htarget
      obtain ⟨rfl, rfl, rfl⟩ : x = target ∧ a = valueA ∧ b = valueB := by
        simpa [pure] using heq
      have hkinds := (Option.guard_eq_some' _).mp hguard
      simp only [Bool.and_eq_true, beq_iff_eq] at hkinds
      have hfirstKind : (s.kind first).isOperation := by rw [hkinds.1.1]; rfl
      have hsecondKind : (s.kind second).isOperation := by rw [hkinds.1.2]; rfl
      exact keepsPlan_mergeAssignments h hid hcondition
        (h.value_of_value hs hfirst hfirstKind (mem_of_nth? hx))
        (h.value_of_value hs hfirst hfirstKind (mem_of_nth? ha))
        (h.value_of_value hs hsecond hsecondKind (mem_of_nth? hb))
  case h_2 =>
      rw [gives_bind]
      refine (gives_conditional (X := (C id).idle) h hcondition hfirst hsecond).mono ?_
      rintro value s₁ ⟨C₁, hvalue⟩
      have hid₁ := hid.of_extends hvalue.toExtends
      have hplan := hvalue.plan_eq id hid.lt
      refine (keepsPlan_putExpression hvalue.planned hid₁ ?_).mono fun _ _ hs' =>
        hvalue.rearranged.trans hs'
      rw [hplan]
      exact hvalue.value rfl

/-- Statements move behind one where there is room for them. -/
theorem rearranged_insertBehind {anchor : NodeId} {statements : List NodeId} (h : Planned C s)
    (hanchor : s.Listed anchor) (hroom : Roomy C s X anchor) (hstatements : ∀ x ∈ statements,
      x < s.size ∧ C x ≤ X ∧ s.Listed x ∧ Roomy C s X x ∧ Listable C s x) :
    s.Rearranged (insertBehind anchor statements s) := by
  induction statements generalizing s anchor with
  | nil => exact .refl ⟨C, h⟩
  | cons statement rest ih =>
      obtain ⟨⟨hlt, hle, hlisted, hroomy, hlistable⟩, hrest⟩ :=
        List.forall_mem_cons.mp hstatements
      obtain ⟨hinsert, hkept, hkept'⟩ := h.insertAfter hanchor hroom hlt hle hlistable
      have hdrop : Extends C _ C ((s.insertAfter anchor statement).setRole statement none) :=
        hinsert.planned.dropRole
      rw [insertBehind]
      refine (hinsert.trans hdrop).rearranged.trans (ih hdrop.planned ?_ ?_ ?_)
      · exact (hkept statement hlisted).setRole none
      · exact (hkept' statement hroomy).dropRole
      · intro x hx
        obtain ⟨hlt, hle, hlisted, hroomy, hlistable⟩ := hrest x hx
        refine ⟨hdrop.lt (hinsert.lt hlt), hle, (hkept x hlisted).setRole none,
          (hkept' x hroomy).dropRole, Listable.dropRole ?_⟩
        rwa [Listable, role?, head_insertAfter]

theorem keepsPlan_liftElse (h : s.Ordered) (hkind : s.kind id = .ifElse)
    (helse : elsePart ∈ s.children id) : KeepsPlan (liftElse id thenPart elsePart) s := by
  obtain ⟨C, hC⟩ := h.arranged
  have hle := (hC.le_of_mem h.toLinked (by rw [hkind]; rfl) helse).trans Reach.idle_le
  have hremove : Extends C s C (s.remove elsePart) := hC.remove
  rw [KeepsPlan, liftElse, gives_bind, gives_get]
  split
  case isFalse => exact .refl h.arranged
  case isTrue hcase =>
      rw [Bool.and_eq_true] at hcase
      have hlisted : (s.remove elsePart).Listed id := (listed_of_inStatementList hcase.1).remove
      split
      case isTrue hblock =>
          split
          case isTrue => exact .refl h.arranged
          case isFalse =>
              have hneutral : (s.kind elsePart).isNeutral := by rw [hblock]; rfl
              refine hremove.rearranged.trans (rearranged_insertBehind (X := (C elsePart).idle)
                hremove.planned hlisted (hremove.planned.roomy (Reach.idle_le.trans hle))
                fun c hc => ?_)
              have hparent := h.parent?_of_mem hc
              refine ⟨hremove.lt (h.child_lt hc), hC.le_of_mem h.toLinked hneutral hc,
                Listed.remove ?_, Roomy.remove ?_, (hC.listable hparent).remove⟩
              · intro p hp
                rw [hparent, Option.some_inj] at hp
                rw [← hp, hblock]
                rfl
              · intro p hp
                rw [hparent, Option.some_inj] at hp
                rw [← hp, Reach.inside_of_isNeutral hneutral]
      case isFalse =>
          have hnone : (s.remove elsePart).parent? elsePart = none := by
            rw [remove, parent?_setRole, parent?_detach, if_pos rfl]
          refine hremove.rearranged.trans (rearranged_insertBehind hremove.planned hlisted
            (hremove.planned.roomy hle) ?_)
          rw [List.forall_mem_singleton]
          refine ⟨hremove.lt (h.child_lt helse), le_refl _, fun p hp => ?_, fun p hp => ?_,
            fun role hrole => ?_⟩
          · rw [hnone] at hp
            cases hp
          · rw [hnone] at hp
            cases hp
          · rw [role?, remove, setRole, head_modifyHead, size_detach,
              if_pos ⟨rfl, h.child_lt helse⟩] at hrole
            cases hrole

/-- Copies of values are values with the same reach. -/
theorem gives_copyPlain {source : NodeId} (h : Planned C s) (hs : s.Forest)
    (hsource : Value C s X source) : Gives (copyPlain source) s fun copy s' =>
      s'.Forest ∧ ∃ C', Extends C s C' s' ∧ Value C' s' X copy := by
  rw [copyPlain, gives_bind, gives_get]
  have hfits : (s.view source).Fits X.value :=
    h.fits_viewFrom hs.toLinked _ hsource.lt hsource.value.le
  have hview : (s.view source).head = s.head source := by
    rw [view]
    cases s.size <;> rfl
  obtain ⟨C', hgraft, hplan, hhead⟩ := h.graft hs hfits
  have hforest := hs.graft (s.view source)
  obtain ⟨hid, -, hlt, -⟩ := graft_spec s (s.view source)
  rw [← hid] at hlt
  rcases hcopy : s.copy source with ⟨copy, s₁⟩
  rw [show s.graft (s.view source) = _ from hcopy] at hgraft hplan hhead hforest hlt
  have hvalue : Value C' s₁ X copy := by
    refine ⟨hlt, ?_, hplan.trans_le Reach.value_le, by rw [hplan]; rfl⟩
    rw [hhead, hview]
    exact hsource.isExpression
  have hdrop : Extends C' s₁ C' (s₁.setRole copy none) := hgraft.planned.dropRole
  exact ⟨hforest.setRole none, C', hgraft.trans hdrop, hvalue.of_extends hdrop⟩

theorem keepsPlan_toLogical (h : s.Ordered) (hC : Planned C s) (hid : s.Replaceable id)
    (hcondition : Value C s (C id).idle condition) (hthen : C thenPart ≤ (C id).idle) :
    KeepsPlan (toLogical id condition thenPart) s := by
  rw [KeepsPlan, toLogical, gives_bind, gives_get]
  split
  case h_2 => exact .refl h.arranged
  case h_1 expression kind left hexpression hform =>
      -- Both operands are values where the statement is.
      have hright : Value C s (C id).idle expression :=
        (hC.value_of_expressionOf? h.toLinked hexpression).mono
          (Reach.idle_mono (Y := (C id).idle) hthen)
      have hleft : Value C s (C id).idle left ∧ (kind = .and ∨ kind = .or) := by
        rw [logicalForm] at hform
        split at hform
        case isTrue hnot =>
            obtain ⟨operand, hoperand, heq⟩ := Option.map_eq_some_iff.mp hform
            obtain ⟨rfl, rfl⟩ := Prod.mk.inj heq
            exact ⟨hC.value_of_value h.toLinked hcondition (by rw [hnot.1]; rfl)
              (mem_of_nth? hoperand), .inr rfl⟩
        case isFalse =>
            obtain ⟨rfl, rfl⟩ := Prod.mk.inj (Option.some_inj.mp hform)
            exact ⟨hcondition, .inl rfl⟩
      obtain ⟨hkind, hholds, hbound⟩ : kind.isStatement = false ∧ kind.holdsValues ∧
          kind.isBound = false := by
        rcases hleft.2 with rfl | rfl <;> exact ⟨rfl, rfl, rfl⟩
      rw [gives_bind]
      refine (gives_copyPlain hC h.toForest hleft.1).mono ?_
      rintro leftCopy s₁ ⟨hforest₁, C₁, hs₁, hleft₁⟩
      rw [gives_bind]
      refine (gives_copyPlain hs₁.planned hforest₁ (hright.of_extends hs₁)).mono ?_
      rintro rightCopy s₂ ⟨-, C₂, hs₂, hright₂⟩
      rw [gives_bind, gives_get]
      rcases hadd : s₂.add { kind, span := s.span id } with ⟨logical, s₃⟩
      obtain ⟨C₃, hmade⟩ := hs₂.planned.made_add (X := (C id).idle.value)
        (Head.fitsIn_of_not_isBound hbound) hadd
      have hleft₂ := (hleft₁.of_extends hs₂).of_extends hmade.toExtends
      have hone := hmade.append hholds hleft₂.value
      have htwo := hone.append hholds (hright₂.value.of_extends hone.toExtends)
      dsimp only
      rcases hwrap : ((s₃.append logical leftCopy).append logical rightCopy).wrapExpression logical
        with ⟨statement, s₄⟩
      obtain ⟨C₄, hstatement⟩ :=
        htwo.planned.made_wrapExpression (X := C id) (htwo.value hkind) hwrap
      have hs := (hs₁.trans hs₂).trans htwo.toExtends
      have hid₃ := hid.of_extends hs
      have hplan := hs.plan_eq id hid.lt
      rw [gives_bind, gives_set]
      split
      · exact hs.rearranged.trans (hstatement.replaceStatement (le_of_eq hplan.symm) hid₃)
      · exact hs.rearranged.trans hstatement.rearranged

theorem keepsPlan_reduceBranches (h : s.Ordered) (hkind : s.kind id = .ifElse)
    (hcondition : s.child? id .condition = some condition) (hthen : thenPart ∈ s.children id)
    (helse : elsePart ∈ s.children id) :
    KeepsPlan (reduceBranches id condition thenPart elsePart) s := by
  obtain ⟨C, hC⟩ := h.arranged
  have hneutral : (s.kind id).isNeutral := by rw [hkind]; rfl
  have hid : s.Replaceable id := replaceable_of_kind (by rw [hkind]; rfl)
  have hcondition' := hC.value_of_child? h.toLinked hneutral rfl hcondition
  -- What is in a branch is allowed in its place.
  have hinner : ∀ {branch : NodeId}, branch ∈ s.children id → (C branch).idle ≤ (C id).idle :=
    fun hbranch => Reach.idle_mono (Y := (C id).idle) (hC.le_of_mem h.toLinked hneutral hbranch)
  rw [KeepsPlan, reduceBranches, gives_bind, gives_get]
  split
  case h_1 first second hvalues =>
      simp only [returnedValues?, Option.bind_eq_bind, Option.bind_eq_some_iff] at hvalues
      obtain ⟨_, hguard, a, ha, b, hb, heq⟩ := hvalues
      obtain ⟨rfl, rfl⟩ : a = first ∧ b = second := by simpa [pure] using heq
      have hkinds := (Option.guard_eq_some' _).mp hguard
      simp only [Bool.and_eq_true, beq_iff_eq] at hkinds
      have hvalue : ∀ {branch value}, branch ∈ s.children id → s.kind branch = .returnStmt →
          s.child? branch .value = some value → Value C s (C id).idle value := by
        intro branch value hbranch hreturn hchild
        refine (hC.value_of_child? h.toLinked (by rw [hreturn]; rfl) rfl hchild).mono ?_
        exact hinner hbranch
      have hreturns : (C id).returns :=
        (hC.le_of_mem h.toLinked hneutral hthen).returns
          ((hC.fits thenPart (h.child_lt hthen)).leaving (.inl hkinds.1))
      rw [gives_bind]
      exact keepsPlan_mergeReturns hC hid hreturns hcondition' (hvalue hthen hkinds.1 ha)
        (hvalue helse hkinds.2 hb)
  case h_2 =>
      split
      case h_1 first second hvalues =>
          simp only [branchExpressions?, Option.bind_eq_bind, Option.bind_eq_some_iff] at hvalues
          obtain ⟨a, ha, b, hb, heq⟩ := hvalues
          obtain ⟨rfl, rfl⟩ : a = first ∧ b = second := by simpa [pure] using heq
          rw [gives_bind]
          exact keepsPlan_mergeExpressions hC h.toLinked hid hcondition'
            ((hC.value_of_expressionOf? h.toLinked ha).mono (hinner hthen))
            ((hC.value_of_expressionOf? h.toLinked hb).mono (hinner helse))
      case h_2 => exact keepsPlan_liftElse h hkind helse

theorem keepsPlan_reduceIf (h : s.Ordered) (hkind : s.kind id = .ifElse) :
    KeepsPlan (reduceIf id) s := by
  rw [KeepsPlan, reduceIf, gives_bind, gives_get]
  split
  case h_1 condition thenPart hcondition hthen =>
      split
      case h_1 elsePart helse =>
          exact keepsPlan_reduceBranches h hkind hcondition (mem_of_child? hthen)
            (mem_of_child? helse)
      case h_2 =>
          obtain ⟨C, hC⟩ := h.arranged
          have hneutral : (s.kind id).isNeutral := by rw [hkind]; rfl
          exact keepsPlan_toLogical h hC (replaceable_of_kind (by rw [hkind]; rfl))
            (hC.value_of_child? h.toLinked hneutral rfl hcondition)
            (hC.le_of_mem h.toLinked hneutral (mem_of_child? hthen))
  case h_2 => exact .refl h.arranged

end Conditions

/-! ### Blocks -/

namespace Blocks

variable {list previous current first second comma : NodeId} {rest : List NodeId}

theorem rearranged_dissolve (h : s.Ordered) (hid : s.Listed id) :
    Gives (dissolve id) s fun _ s' =>
      s.Rearranged s' ∧ ∀ other, s.Listed other → s'.Listed other := by
  obtain ⟨C, hC⟩ := h.arranged
  have hsame : s.Rearranged s ∧ ∀ other, s.Listed other → s.Listed other :=
    ⟨.refl h.arranged, fun _ hother => hother⟩
  rw [dissolve, gives_bind, gives_get]
  split
  · split
    · rw [gives_bind, gives_modify]
      exact ⟨hC.remove.rearranged, fun _ hother => hother.remove⟩
    · exact hsame
  case h_2 hkind =>
      split
      · exact hsame
      · rw [gives_bind, gives_modify]
        obtain ⟨hsplice, hlisted⟩ := hC.spliceBefore h.toLinked hid hkind (le_refl _)
        exact ⟨hsplice.rearranged, hlisted⟩
  · exact hsame

/-- The comma expression around a value has its reach. -/
theorem extends_commaAround (h : Planned C s) (hparent : s.parent? first = some previous)
    (hkind : s.kind previous = .semicolon) (hfirst : Value C s (C first).idle first) :
    Gives (commaAround first) s fun comma s' => ∃ C', Extends C s C' s' ∧ comma < s'.size ∧
      s'.kind comma = .comma ∧ C' comma = C first := by
  rw [commaAround, gives_bind, gives_get]
  split
  case isTrue hopen =>
      rw [isOpenComma, Bool.and_eq_true, beq_iff_eq] at hopen
      exact ⟨C, .refl h, hfirst.lt, hopen.1, rfl⟩
  case isFalse =>
      rcases hadd : s.add { kind := .comma, span := s.span first } with ⟨comma, s₁⟩
      obtain ⟨C', hmade⟩ := h.made_add (X := C first) (Head.fitsIn_of_not_isBound rfl) hadd
      have hparent₁ : s₁.parent? first = some previous := by
        rw [← show (s.add _).2 = s₁ from congrArg Prod.snd hadd, parent?_add, hparent]
      have hreplace : Extends C' s₁ C' (s₁.replace first comma) := by
        have hfirst₁ := hfirst.of_extends hmade.toExtends
        refine hmade.planned.replace hmade.lt_new ?_ hfirst₁.ne_script fun p hp => ?_
        · rw [hmade.plan_new, hmade.plan_eq first hfirst.lt]
        · rw [hparent₁, Option.some_inj] at hp
          refine Head.admits_of_isPlain ?_ fun _ _ _ => hmade.isExpression rfl
          have hkind₁ : (s₁.head previous).kind = .semicolon := by
            rw [← hkind, ← hmade.kind_eq (h.parent_lt hparent)]
            rfl
          rw [← hp, hkind₁]
          rfl
      have hcomma := hmade.trans hreplace
      have happend := (hcomma.append rfl (hfirst.of_extends hcomma.toExtends)).dropRole first
      exact ⟨C', happend.toExtends, happend.lt_new, happend.kind_new, happend.plan_new⟩

/-- Values with the reach of a comma expression are added to it. -/
theorem extends_extendComma (h : Planned C s) (hs : s.Linked) (hlt : comma < s.size)
    (hkind : s.kind comma = .comma) (hsecond : Value C s (C comma).idle second) :
    Extends C s C (extendComma comma second s) := by
  have hoperation : (s.kind comma).isOperation := by rw [hkind]; rfl
  rw [extendComma]
  split
  case isTrue hopen =>
      rw [isOpenComma, Bool.and_eq_true, beq_iff_eq] at hopen
      have hparts : ∀ part ∈ s.children second, Value C s (C comma).idle part := fun part hpart =>
        h.value_of_value hs hsecond (by rw [hopen.1]; rfl) hpart
      refine List.foldlRecOn (motive := fun s' => Extends C s C s') _ _ (.refl h) ?_
      intro s' hs' part hpart
      refine hs'.trans
        (hs'.planned.appendValue ?_ (hs'.lt hlt) ((hparts part hpart).of_extends hs'))
      rwa [hs'.kind_eq hlt]
  case isFalse =>
      have happend := h.appendValue hoperation hlt hsecond
      exact happend.trans happend.planned.dropRole

/-- A statement is merged into the one before it. -/
theorem rearranged_merge (h : s.Ordered) (hids : Siblings s list (previous :: current :: rest))
    (hfirst : s.expressionOf? previous = some first)
    (hsecond : s.expressionOf? current = some second) :
    Gives (commaAround first) s fun comma s' =>
      s.Rearranged ((extendComma comma second s').remove current) := by
  obtain ⟨C, hC, hexact⟩ := h.exists_exact
  have hparent := h.parent?_of_mem (mem_of_expressionOf? hfirst)
  have hneutral : ∀ {statement}, s.kind statement = .semicolon →
      (s.head statement).kind.isNeutral := by
    intro statement hkind
    rw [show (s.head statement).kind = _ from hkind]
    rfl
  have hreach : ∀ {statement value}, s.expressionOf? statement = some value →
      statement ∈ previous :: current :: rest →
      C value = ((C list).inside (s.head list)).value.idle := by
    intro statement value hvalue hmem
    have hrole := (kind_role_of_expressionOf? hvalue).2
    rw [hexact (h.parent?_of_mem (mem_of_child? hrole)),
      Reach.around_of_values (Head.values_of_role (role?_of_child? hrole) rfl),
      Reach.inside_of_isNeutral (hneutral (kind_of_expressionOf? hvalue)),
      hexact (hids.parent statement hmem), Reach.value_idle, Reach.value_around]
  have hfirstReach := hreach hfirst List.mem_cons_self
  have hsecondReach := hreach hsecond (List.mem_cons_of_mem _ List.mem_cons_self)
  have hfirst' : Value C s (C first).idle first := by
    have hvalue := hC.value_of_expressionOf? h.toLinked hfirst
    refine ⟨hvalue.lt, hvalue.isExpression, ?_, hvalue.valued⟩
    rw [hfirstReach, Reach.idle_idle]
  have hsecond' : Value C s (C first).idle second := by
    have hvalue := hC.value_of_expressionOf? h.toLinked hsecond
    refine ⟨hvalue.lt, hvalue.isExpression, ?_, hvalue.valued⟩
    rw [hfirstReach, hsecondReach, Reach.idle_idle]
  have hforest : Gives (commaAround first) s fun _ s' => s'.Forest := by
    have hmovable := h.toForest.movable_child (mem_of_expressionOf? hfirst)
    refine (gives_commaAround h.toForest hparent hmovable rfl ?_).mono fun _ _ hs => hs.1.forest
    exact singleton_lt (h.parent_lt hparent)
  have hplan := extends_commaAround hC hparent (kind_of_expressionOf? hfirst) hfirst'
  refine Gives.mono (hforest.and hplan) ?_
  rintro comma s' ⟨hforest, C', hs, hlt, hkind, hcomma⟩
  have hextend := extends_extendComma hs.planned hforest.toLinked hlt hkind
    (hcomma ▸ hsecond'.of_extends hs)
  exact (hs.trans (hextend.trans hextend.planned.remove)).rearranged

theorem keepsOrder_mergeInto (h : s.Ordered) (hids : Siblings s list (previous :: rest)) :
    KeepsOrder (mergeInto previous rest) s := by
  induction rest generalizing s previous with
  | nil => exact keepsOrder_pure h
  | cons current rest ih =>
      rw [KeepsOrder, mergeInto, gives_bind, gives_get]
      split
      case h_2 => exact ih h (hids.sublist (List.sublist_cons_self _ _))
      case h_1 first second hfirst hsecond =>
          have hsteady := gives_merge h.toForest hids (mem_of_expressionOf? hfirst)
            (mem_of_expressionOf? hsecond)
          have hplan := rearranged_merge h hids hfirst hsecond
          rw [gives_bind]
          refine Gives.mono (hsteady.and hplan) ?_
          rintro comma s' ⟨hs, hplan⟩
          rw [gives_bind, gives_modify, gives_bind]
          refine (ih ⟨hs.forest, hplan.arranged⟩ (Siblings.of_steady (hids.sublist ?_) hs)).mono ?_
          · exact List.Sublist.cons_cons _ (List.sublist_cons_self _ _)
          · exact fun _ s'' hs' => ⟨hs'.1, hplan.trans hs'.2⟩

theorem keepsOrder_reduceList (h : s.Ordered) (hlist : (s.kind list).isStatementList) :
    KeepsOrder (reduceList list) s := by
  rw [KeepsOrder, reduceList, gives_bind, gives_get, gives_bind]
  -- The statements that are not yet dissolved stand in lists.
  have hlisted : ∀ x ∈ s.children list, s.Listed x := by
    intro x hx p hp
    rw [h.parent?_of_mem hx, Option.some_inj] at hp
    rwa [← hp]
  refine Gives.mono (gives_sweep (I := fun ids s' => (s'.Ordered ∧ s.Rearranged s') ∧
    ∀ x ∈ ids, s'.Listed x) ⟨⟨h, .refl h.arranged⟩, hlisted⟩ ?_) ?_
  · rintro id rest s' ⟨⟨hs, hkept⟩, hids⟩
    rw [List.forall_mem_cons] at hids
    have hforest : KeepsForest (dissolve id) s' := keepsForest_dissolve hs.toForest
    have hplan := rearranged_dissolve hs hids.1
    refine ⟨⟨⟨hforest, hplan.1.arranged⟩, hkept.trans hplan.1⟩, fun x hx => ?_⟩
    exact hplan.2 x (hids.2 x hx)
  · rintro _ s' ⟨⟨hs, hkept⟩, -⟩
    rw [gives_bind, gives_get]
    split
    · exact ⟨hs, hkept⟩
    case h_2 first rest hlist =>
        rw [gives_bind]
        refine (keepsOrder_mergeInto hs (hlist ▸ siblings_children hs.toForest list)).mono ?_
        exact fun _ s'' hs' => ⟨hs'.1, hkept.trans hs'.2⟩

theorem keepsPlan_collapse (h : s.Ordered) (hkind : s.kind id = .block) :
    KeepsPlan (collapse id) s := by
  obtain ⟨C, hC⟩ := h.arranged
  have hid : s.Replaceable id := replaceable_of_kind (by rw [hkind]; rfl)
  rw [KeepsPlan, collapse, gives_bind, gives_get]
  split
  · exact .refl h.arranged
  · split
    · rcases hadd : s.add { kind := .semicolon, span := s.span id } with ⟨empty, s₁⟩
      obtain ⟨C', hmade⟩ := hC.made_add (X := C id) (Head.fitsIn_of_not_isBound rfl) hadd
      exact hmade.replaceStatement (le_refl _) hid
    case h_2 statement hchildren =>
        have hmem : statement ∈ s.children id := by rw [hchildren]; exact List.mem_singleton_self _
        refine gives_ite (fun _ => .refl h.arranged) fun _ => ?_
        rw [gives_bind, gives_modify]
        refine (hC.replace_of_not_isFixed (h.child_lt hmem) ?_ hid.not_isFixed
          (by simp [hid.not_isExpression])).rearranged
        exact (hC.le_of_mem h.toLinked (by rw [hkind]; rfl) hmem).trans Reach.idle_le
    case h_3 => exact .refl h.arranged

theorem not_isFixed_of_isBinary {kind : Kind} (h : kind.isBinary) : kind.isFixed = false := by
  cases kind <;> first | rfl | cases h

theorem keepsOrder_reduceForm (h : s.Ordered) : KeepsOrder (reduceForm id) s := by
  rw [KeepsOrder, reduceForm, gives_bind, gives_get]
  split
  case h_1 hkind => exact keepsOrder_reduceList h (by rw [hkind]; rfl)
  case h_2 hkind =>
      refine (keepsOrder_reduceList h (by rw [hkind]; rfl)).bind fun _ s' hs hkept => ?_
      have hblock : s'.kind id = .block := by
        rw [hkept.kind_eq (lt_of_kind (by simp [hkind])), hkind]
      refine KeepsOrder.bind ?_ fun _ s'' hs' _ => keepsOrder_pure hs'
      exact (keepsForest_collapse hs.toForest).keepsOrder (keepsPlan_collapse hs hblock)
  case h_3 hkind =>
      exact (Conditions.keepsForest_reduceIf h.toForest).keepsOrder
        (Conditions.keepsPlan_reduceIf h hkind)
  case h_4 hkind =>
      exact (Expressions.keepsForest_foldNegation h.toForest).keepsOrder
        (Expressions.keepsPlan_foldNegation h (by rw [hkind]; rfl))
  case h_5 =>
      split
      case isTrue hkind =>
          exact (Expressions.keepsForest_foldLiterals h.toForest).keepsOrder
            (Expressions.keepsPlan_foldLiterals h (not_isFixed_of_isBinary hkind))
      case isFalse => exact keepsOrder_pure h

theorem keepsOrder_reduceNode (h : s.Ordered) : KeepsOrder (reduceNode id) s := by
  have hparens : KeepsOrder (Expressions.removeParens id) s :=
    (Expressions.keepsForest_removeParens h.toForest).keepsOrder
      (Expressions.keepsPlan_removeParens h)
  refine hparens.bind fun _ s' hs _ => ?_
  exact (keepsOrder_reduceForm hs).bind fun _ s'' hs' _ => keepsOrder_pure hs'

end Blocks

theorem keepsOrder_reduceBlocks (h : s.Ordered) : KeepsOrder reduceBlocks s := by
  rw [KeepsOrder, reduceBlocks, gives_bind, gives_get]
  exact keepsOrder_sweep h fun _ _ _ hs _ => Blocks.keepsOrder_reduceNode hs

end ScriptMin
