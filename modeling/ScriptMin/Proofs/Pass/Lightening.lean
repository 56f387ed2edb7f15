import Mathlib.Algebra.Order.BigOperators.Group.Finset
import ScriptMin.Pass.Blocks
import ScriptMin.Proofs.Pass.Burdens
import ScriptMin.Proofs.Pass.ReductionForests
import ScriptMin.Proofs.Store.Growing
import ScriptMin.Proofs.Store.Sweeping
import ScriptMin.Proofs.Store.Taking

/-!
Reductions lower the burden of the tree. Every reduction of a node that reports a change makes the
tree a lighter burden, whatever it is: it takes something away, merges statements, or puts something
lighter in the place of what it reduces. A reduction that reports no change adds copies to the store
at most, which are not in the tree. So a round that reports a change lowers the burden, and one that
reports none leaves the tree as it is.
-/

namespace ScriptMin

namespace Store

variable {s s' s'' : Store} {id x y parent child new : NodeId} {t : Tree}

/-! ### Nodes below a node -/

theorem within_of_mem_preorderFrom (hs : s.Linked) {enter : NodeId → Bool} {depth : Nat}
    (hx : x ∈ s.preorderFrom enter depth id) : s.Within x id := by
  induction depth generalizing id with
  | zero => rw [List.mem_singleton.mp hx]; exact .refl
  | succ depth ih =>
      rw [preorderFrom, List.mem_cons] at hx
      rcases hx with rfl | hx
      · exact .refl
      · split at hx
        · obtain ⟨c, hc, hx⟩ := List.mem_flatMap.mp hx
          exact (ih hx).trans (within_of_parent (hs.parent?_of_mem hc))
        · cases hx

theorem Forest.nodup_preorderFrom (h : s.Forest) (enter : NodeId → Bool) (depth : Nat)
    (id : NodeId) : (s.preorderFrom enter depth id).Nodup := by
  induction depth generalizing id with
  | zero => exact List.nodup_singleton id
  | succ depth ih =>
      rw [preorderFrom, List.nodup_cons]
      split
      case isFalse => exact ⟨List.not_mem_nil, List.nodup_nil⟩
      case isTrue =>
        refine ⟨fun hself => ?_, List.nodup_flatMap.mpr ⟨fun c _ => ih c, ?_⟩⟩
        · obtain ⟨c, hc, hid⟩ := List.mem_flatMap.mp hself
          exact h.not_within_child hc (within_of_mem_preorderFrom h.toLinked hid)
        · refine (h.nodup id).imp_of_mem fun {a b} ha hb hne => ?_
          exact fun x hxa hxb => h.not_within_of_sibling (h.parent?_of_mem ha)
            (h.parent?_of_mem hb) hne (within_of_mem_preorderFrom h.toLinked hxa)
            (within_of_mem_preorderFrom h.toLinked hxb)

theorem Forest.mem_descendants_iff (h : s.Forest) : x ∈ s.descendants id ↔ s.Within x id :=
  ⟨within_of_mem_preorderFrom h.toLinked, h.mem_descendants⟩

theorem Forest.nodup_descendants (h : s.Forest) (id : NodeId) : (s.descendants id).Nodup :=
  h.nodup_preorderFrom _ _ _

/-! ### The burden of the tree -/

def burden (s : Store) : Nat := (s.view s.root).burden

/-- The burden of the tree is that of its nodes. -/
theorem Forest.burden_eq_sum (h : s.Forest) :
    s.burden = ∑ x ∈ (s.descendants s.root).toFinset, (s.head x).burden := by
  rw [List.sum_toFinset _ (h.nodup_descendants _), burden, Tree.burden, weight_view]

theorem Grows.burden_eq (h : Grows s s') (hs : s.Forest) (hs' : s'.Forest) :
    s'.burden = s.burden := by
  rw [burden, burden, h.root_eq, h.view_eq hs hs' hs.root_lt]

/-- A reduction of a node is local. If it changes anything, it makes the tree a lighter burden, and
else it adds nodes at most. -/
structure Lightens (s : Store) (id : NodeId) (changed : Bool) (s' : Store) : Prop
    extends Local s s' id where
  lighter : changed = true → s'.burden < s.burden
  grows : changed = false → Grows s s'

namespace Lightens

theorem unchanged (h : s.Forest) (id : NodeId) : Lightens s id false s :=
  ⟨.refl h id, nofun, fun _ => .refl s⟩

theorem of_grows (h : Grows s s') (hs' : s'.Forest) : Lightens s id false s' where
  forest := hs'
  root_eq := h.root_eq
  link x p _ _ hp := by rw [h.parent?_eq (parent?_lt hp), hp]
  lighter := nofun
  grows _ := h

theorem outward {changed : Bool} (h : Lightens s x changed s') (hx : s.Within x id) :
    Lightens s id changed s' := ⟨h.toLocal.outward hx, h.lighter, h.grows⟩

theorem trans {a b : Bool} (h : Lightens s id a s') (h' : Lightens s' id b s'') (hs : s.Forest) :
    Lightens s id (a || b) s'' where
  toLocal := h.toLocal.trans h'.toLocal hs
  lighter hchanged := by
    cases a with
    | false =>
        exact (h'.lighter hchanged).trans_eq ((h.grows rfl).burden_eq hs h.forest)
    | true =>
        have hlt := h.lighter rfl
        cases b with
        | false => exact ((h'.grows rfl).burden_eq h.forest h'.forest).trans_lt hlt
        | true => exact (h'.lighter rfl).trans hlt
  grows hchanged := by
    obtain ⟨rfl, rfl⟩ := Bool.or_eq_false_iff.mp hchanged
    exact (h.grows rfl).trans (h'.grows rfl)

/-- What is lighter than a node is put in its place. -/
theorem of_puts {news : List NodeId} (h : Puts s s' id news) (hs : s.Forest)
    (hid : s.Within id s.root) (hne : id ≠ s.root)
    (hlighter : Tree.burdenList (news.map s'.view) < (s.view id).burden) :
    Lightens s id true s' where
  toLocal := h.local hs
  lighter _ := by
    have hweight := (h.rewrites hs hid hne).weight_eq (w := Head.burden)
    rw [burden, burden, h.root_eq, Tree.burden, Tree.burden]
    rw [Tree.burdenList, Tree.burden] at hlighter
    omega
  grows := nofun

end Lightens

/-- Without a parent a node is not in the tree, unless it is the root. -/
theorem ne_root_of_parent (h : s.Linked) (hlink : s.parent? id = some parent) : id ≠ s.root :=
  h.ne_root hlink

theorem exists_parent (hid : s.Within id s.root) (hne : id ≠ s.root) :
    ∃ p, s.parent? id = some p := by
  obtain ⟨p, hp, -⟩ := hid.cases.resolve_left hne
  exact ⟨p, hp⟩

end Store

open Store Edit

variable {s s' : Store} {id : NodeId}

/-- A reduction of a node lightens the tree. -/
def Edit.Lightens (m : Edit Bool) (id : NodeId) (s : Store) : Prop :=
  Gives m s fun changed s' => Store.Lightens s id changed s'

/-! ### Expressions -/

namespace Expressions

theorem within_setParenthesized {x y : NodeId} :
    (s.setParenthesized id false).Within x y ↔ s.Within x y :=
  within_congr fun _ _ => parent?_modifyHead _

/-- A tree without a pair of parentheses is a lighter burden. -/
theorem burden_setParenthesized (h : s.Forest) (hid : s.Within id s.root)
    (hflag : (s.flags id).parenthesized = true) :
    (s.setParenthesized id false).burden < s.burden := by
  have hforest : (s.setParenthesized id false).Forest := h.modifyHead _
  have hnodes : ((s.setParenthesized id false).descendants s.root).toFinset =
      (s.descendants s.root).toFinset := by
    ext x
    rw [List.mem_toFinset, List.mem_toFinset, hforest.mem_descendants_iff, h.mem_descendants_iff,
      within_setParenthesized]
  have hhead : ∀ x, ((s.setParenthesized id false).head x).burden +
      (if x = id then 1 else 0) = (s.head x).burden := by
    intro x
    rw [setParenthesized, head_modifyHead]
    by_cases hx : x = id
    · subst hx
      rw [if_pos ⟨rfl, h.lt_of_reached hid⟩, if_pos rfl, Head.burden, Head.burden,
        if_pos (show (s.head x).flags.parenthesized = true from hflag)]
      simp only [Bool.false_eq_true, if_false]
      omega
    · rw [if_neg fun h => hx h.1, if_neg hx, Nat.add_zero]
  rw [h.burden_eq_sum, hforest.burden_eq_sum,
    show (s.setParenthesized id false).root = s.root from rfl, hnodes]
  refine Finset.sum_lt_sum (fun x _ => ?_) ⟨id, ?_, ?_⟩
  · have hx := hhead x
    omega
  · rw [List.mem_toFinset, h.mem_descendants_iff]
    exact hid
  · have hself := hhead id
    rw [if_pos rfl] at hself
    omega

theorem lightens_removeParens (h : s.Forest) (hid : s.Within id s.root) :
    Gives (removeParens id) s fun changed s' =>
      s'.Within id s'.root ∧ Store.Lightens s id changed s' := by
  rw [removeParens, gives_bind, gives_get]
  refine gives_ite (fun hcond => ?_) fun _ => ⟨hid, .unchanged h id⟩
  rw [gives_bind, gives_modify, gives_pure]
  refine ⟨within_setParenthesized.mpr hid, ⟨h.modifyHead _, rfl, fun x p _ _ hp => ?_⟩, fun _ => ?_,
    by simp⟩
  · rw [setParenthesized, parent?_modifyHead, hp]
  · exact burden_setParenthesized h hid (Bool.and_eq_true_iff.mp hcond).1

/-- A literal is lighter than an operation. -/
theorem lightens_putLiteral (h : s.Forest) (hid : s.Within id s.root) (hne : id ≠ s.root)
    {kind : Kind} {payload : Payload} (hkind : kind.burden = 1)
    (hheavy : 1 + roleBurden (s.role? id) < (s.view id).burden) :
    (putLiteral id kind payload).Lightens id s := by
  obtain ⟨parent, hlink⟩ := exists_parent hid hne
  have hstart : Prepared s id parent s [id] [] := .start h hlink (by simp) .nil
  rw [Edit.Lightens, putLiteral, gives_bind, gives_get]
  rcases hadd : s.add { kind, span := s.span id, payload } with ⟨literal, s₁⟩
  obtain ⟨hputs, hshown⟩ := (hstart.add hadd).replace (hstart.new_ne hadd)
  dsimp only
  rw [gives_bind, gives_set, gives_pure]
  refine .of_puts hputs h hid hne (lt_of_eq_of_lt ?_ hheavy)
  rw [List.map_singleton, hputs.forest.view_eq hshown]
  simp [Tree.burdenList, Tree.inRole, Tree.mapHead, Head.burden, hkind]

/-- An operation is heavier than a literal. -/
theorem heavy_of_nth? (h : s.Forest) {i : Nat} {operand : NodeId}
    (hoperand : s.nth? id i = some operand) : 1 + roleBurden (s.role? id) < (s.view id).burden := by
  have hnth : (s.view id).nth? i = some (s.view operand) := by
    rw [h.nth?_view, hoperand]
    rfl
  have hheavy := Tree.burden_of_nth? hnth
  have hpos := Tree.burden_pos (s.view operand)
  have hkind := (s.view id).kind.burden_pos
  rw [head_view] at hheavy
  rw [role?]
  omega

theorem lightens_foldNegation (h : s.Forest) (hid : s.Within id s.root) (hne : id ≠ s.root) :
    (foldNegation id).Lightens id s := by
  rw [Edit.Lightens, foldNegation, gives_bind, gives_get]
  split
  case h_1 => exact Store.Lightens.unchanged h id
  case h_2 operand hoperand =>
      refine gives_ite (fun _ => Store.Lightens.unchanged h id) fun _ => ?_
      split
      case h_1 => exact Store.Lightens.unchanged h id
      case h_2 =>
          exact gives_ite (fun _ => Store.Lightens.unchanged h id)
            fun _ => lightens_putLiteral h hid hne rfl (heavy_of_nth? h hoperand)

theorem lightens_foldLiterals (h : s.Forest) (hid : s.Within id s.root) (hne : id ≠ s.root) :
    (foldLiterals id).Lightens id s := by
  rw [Edit.Lightens, foldLiterals, gives_bind, gives_get]
  split
  case h_2 => exact Store.Lightens.unchanged h id
  case h_1 left right hleft _ =>
      have hheavy := heavy_of_nth? h hleft
      split
      · rw [foldNumbers, gives_bind, gives_get]
        dsimp only
        split
        · exact Store.Lightens.unchanged h id
        · exact gives_ite (fun _ => lightens_putLiteral h hid hne rfl hheavy)
            fun _ => Store.Lightens.unchanged h id
      · rw [foldStrings, gives_bind, gives_get]
        exact gives_ite (fun _ => lightens_putLiteral h hid hne rfl hheavy)
          fun _ => Store.Lightens.unchanged h id
      · exact Store.Lightens.unchanged h id

end Expressions

/-! ### Conditions -/

namespace Conditions

variable {s₀ : Store} {parent condition thenPart elsePart expression left : NodeId} {u e : Tree}
  {ready : List (NodeId × Tree)}

theorem grows_copyPlain (h : Grows s₀ s) (id : NodeId) :
    Gives (copyPlain id) s fun copy s' => s₀.size ≤ copy ∧ Grows s₀ s' := by
  rw [copyPlain, gives_bind, gives_get, Store.copy]
  rcases hgraft : s.graft (s.view id) with ⟨copy, s₁⟩
  have hcopy : s₀.size ≤ copy := by
    obtain rfl : s.size = copy := (graft_spec s _).1.symm.trans (congrArg Prod.fst hgraft)
    exact h.size_le
  have hgrows := h.graft (s.view id)
  rw [hgraft] at hgrows
  exact ⟨hcopy, hgrows.setRole hcopy none⟩

/-- Copies are joined where the text of the result is shorter, and else are left aside. -/
theorem gives_logical {kind : Kind}
    (hready : Prepared s id parent s [id] [(left, u), (expression, e)]) :
    Gives (do
      let left ← copyPlain left
      let right ← copyPlain expression
      let (logical, s) := (← get).add { kind, span := s.span id }
      let (statement, s) := ((s.append logical left).append logical right).wrapExpression logical
      set s
      if s.textSize statement < s.textSize id then
        modify (Store.replace id statement)
        return true
      else return false) s fun changed s' => (changed = false → s'.Forest ∧ Grows s s') ∧
        (changed = true ↔ ((performing (joining kind (s.span id) u e)).render {}).utf8ByteSize <
          s.textSize id) := by
  have hid := parent?_lt hready.link
  rw [gives_bind]
  refine ((prepares_copyPlain hready List.mem_cons_self).and
    (grows_copyPlain (.refl s) left)).mono fun copy s₁ ⟨hcopy, hnew, hgrows₁⟩ => ?_
  rw [gives_bind]
  refine ((prepares_copyPlain (t := e) hcopy.2 (x := expression) (by simp)).and
    (grows_copyPlain hgrows₁ expression)).mono fun copy' s₂ ⟨hcopy', hnew', hgrows₂⟩ => ?_
  rw [gives_bind, gives_get]
  have hgrows₃ := hgrows₂.add { kind, span := s.span id }
  rcases hadd : s₂.add { kind, span := s.span id } with ⟨logical, s₃⟩
  rw [hadd] at hgrows₃
  have hlogical : s.size ≤ logical := hgrows₂.size_le.trans_eq (new_of_add hadd).symm
  have h₁ := (hcopy'.2.add hadd).sub ((List.Perm.swap _ _ _).cons _).subperm
  have h₂ := h₁.append hcopy.1 (by simpa using hcopy.1)
  have h₃ := h₂.append hcopy'.1 (by simpa using hcopy'.1)
  have hs := hready.base.toLinked
  have hgrows₄ := (hgrows₃.append hs h₁.forest.toLinked hlogical hnew).append hs
    h₂.forest.toLinked hlogical hnew'
  have hspan : ((s₃.append logical copy).append logical copy').span logical = s.span id := by
    rw [span, (h₃.shows _ List.mem_cons_self).head_eq]
    rfl
  dsimp only
  rw [wrapExpression, hspan]
  have hgrows₅ := hgrows₄.add { kind := .semicolon, span := s.span id }
  rcases hwrap : ((s₃.append logical copy).append logical copy').add
    { kind := .semicolon, span := s.span id } with ⟨statement, s₄⟩
  rw [hwrap] at hgrows₅
  have hstatement : s.size ≤ statement := hgrows₄.size_le.trans_eq (new_of_add hwrap).symm
  have hne := hcopy'.2.new_ne hadd
  have h₄ := (h₃.add hwrap).append_setRole hne (by simpa using hne) (some .expression)
  have hgrows := (hgrows₅.append hs (h₃.add hwrap).forest.toLinked hstatement hlogical).setRole
    hlogical (some .expression)
  dsimp only
  rw [gives_bind, gives_set]
  -- The new statement is not below a call, so that its text is that of the tree.
  have hlt : logical < s₄.size :=
    ((h₃.add hwrap).movable (logical, _) (List.mem_cons_of_mem _ List.mem_cons_self)).lt
  have hparent : (s₄.appendAs statement .expression logical).parent? statement = none := by
    have hbuilt := (h₃.forest.built_add (S := ∅) hwrap).1
    have hnot : statement ≠ logical := by
      rintro rfl
      exact Nat.not_lt.mpr hbuilt.size_le_new (h₃.movable _ List.mem_cons_self).lt
    rw [appendAs, parent?_setRole, parent?_append hlt, if_neg hnot]
    exact hbuilt.parent_new
  have hnewSize : (s₄.appendAs statement .expression logical).textSize statement =
      ((performing (joining kind (s.span id) u e)).render {}).utf8ByteSize := by
    have hview : (s₄.appendAs statement .expression logical).view statement =
        performing (joining kind (s.span id) u e) :=
      h₄.forest.view_eq (h₄.shows _ List.mem_cons_self)
    rw [textSize, render_of_detached hparent, hview]
  have hsize : (s₄.appendAs statement .expression logical).textSize id = s.textSize id := by
    rw [textSize, textSize, appendAs, hgrows.render_eq hready.base h₄.forest hid]
  rw [hnewSize, hsize]
  refine gives_ite (fun hlt => ?_) fun hlt => ?_
  · rw [gives_bind, gives_modify, gives_pure]
    exact ⟨fun h => Bool.noConfusion h, iff_of_true rfl hlt⟩
  · rw [gives_pure]
    exact ⟨fun _ => ⟨h₄.forest, hgrows⟩, iff_of_false Bool.false_ne_true hlt⟩

/-- Whether the logical expression of an `if` without `else` is shorter. -/
def Shortens (s : Store) (id condition thenPart : NodeId) : Prop :=
  ∃ expression kind left, s.expressionOf? thenPart = some expression ∧
    logicalForm s condition = some (kind, left) ∧
    ((performing (joining kind (s.span id) (s.view left) (s.view expression))).render
      {}).utf8ByteSize < s.textSize id

theorem gives_toLogical (h : s.Forest) (hlink : s.parent? id = some parent)
    (hcondition : s.child? id .condition = some condition)
    (hthen : s.child? id .thenPart = some thenPart) :
    Gives (toLogical id condition thenPart) s fun changed s' =>
      (changed = false → s'.Forest ∧ Grows s s') ∧
        (changed = true ↔ Shortens s id condition thenPart) := by
  have hbranches : Prepared s id parent s [id]
      ([condition, thenPart].map fun c => (c, s.view c)) := by
    refine Prepared.start_children h hlink ?_ ?_
    · simp [mem_of_child? hcondition, mem_of_child? hthen]
    · simp [ne_of_child? hcondition hthen]
  rw [toLogical, gives_bind, gives_get]
  split
  case h_2 hnone =>
      refine ⟨fun _ => ⟨h, .refl s⟩, iff_of_false Bool.false_ne_true ?_⟩
      rintro ⟨expression, kind, left, hexpression, hform, -⟩
      exact hnone _ _ _ hexpression hform
  case h_1 expression kind left hexpression hform =>
      have hmem := mem_of_child? (kind_role_of_expressionOf? hexpression).2
      -- The left operand is the condition or what it negates.
      have hleft : Prepared s id parent s [id]
          [(left, s.view left), (thenPart, s.view thenPart)] := by
        rw [logicalForm] at hform
        split at hform
        case isTrue =>
            obtain ⟨operand, hoperand, heq⟩ := Option.map_eq_some_iff.mp hform
            obtain ⟨-, rfl⟩ := Prod.mk.inj heq
            exact hbranches.part (mem_of_nth? hoperand)
        case isFalse =>
            obtain ⟨-, rfl⟩ := Prod.mk.inj (Option.some_inj.mp hform)
            exact hbranches
      have hready : Prepared s id parent s [id]
          [(left, s.view left), (expression, s.view expression)] :=
        ((hleft.sub (List.Perm.swap _ _ _).subperm).part hmem).sub (List.Perm.swap _ _ _).subperm
      refine (gives_logical hready).mono fun changed s' hs' => ⟨hs'.1, hs'.2.trans ?_⟩
      refine ⟨fun hlt => ⟨_, _, _, hexpression, hform, hlt⟩, ?_⟩
      rintro ⟨expression', kind', left', hexpression', hform', hlt⟩
      rw [hexpression, Option.some_inj] at hexpression'
      rw [hform, Option.some_inj, Prod.mk.injEq] at hform'
      obtain ⟨rfl, rfl⟩ := hform'
      rwa [hexpression']

/-- What an `if` is reduced to is lighter. -/
theorem lightens_reduceIf (h : s.Forest) (hid : s.Within id s.root) (hne : id ≠ s.root)
    (hkind : s.kind id = .ifElse) : (reduceIf id).Lightens id s := by
  obtain ⟨parent, hlink⟩ := exists_parent hid hne
  have hgrows : Gives (reduceIf id) s fun changed s' => changed = false →
      s'.Forest ∧ Grows s s' := by
    have hsame : s.Forest ∧ Grows s s := ⟨h, .refl s⟩
    rw [reduceIf, gives_bind, gives_get]
    split
    case h_2 => exact fun _ => hsame
    case h_1 condition thenPart hcondition hthen =>
        split
        case h_2 => exact (gives_toLogical h hlink hcondition hthen).mono fun _ _ hs' => hs'.1
        case h_1 elsePart helse =>
            rw [reduceBranches, gives_bind, gives_get]
            split
            · rw [gives_bind]
              exact fun hfalse => Bool.noConfusion hfalse
            · split
              · rw [gives_bind]
                exact fun hfalse => Bool.noConfusion hfalse
              · rw [liftElse, gives_bind, gives_get]
                refine gives_ite (fun _ => gives_ite (fun _ => gives_ite (fun _ _ => hsame) ?_) ?_)
                  fun _ _ => hsame
                all_goals exact fun _ hfalse => Bool.noConfusion hfalse
  refine ((merges_reduceIf h hlink hkind).and hgrows).mono fun changed s' hs' => ?_
  cases changed with
  | true =>
      obtain ⟨news, hputs, hreduces⟩ := hs'.1 rfl
      exact .of_puts hputs h hid hne hreduces.lighter
  | false =>
      obtain ⟨hforest, hgrows⟩ := hs'.2 rfl
      exact .of_grows hgrows hforest

end Conditions

end ScriptMin
