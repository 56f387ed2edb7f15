import ScriptMin.Pass.Conditions
import ScriptMin.Proofs.Pass.Editing
import ScriptMin.Proofs.Store.Preparing

/-!
What takes the place of an `if` that is reduced, told on trees: one statement made of the parts of
its branches, or the `if` without its second branch and the statements of that behind it.
-/

namespace ScriptMin

open Store Edit

namespace Conditions

/-! ### New trees -/

def choice (condition first second : Tree) : Tree :=
  .node { kind := .conditional, span := condition.span }
    [condition.inRole none, first.inRole none, second.inRole none]

def performing (expression : Tree) : Tree :=
  .node { kind := .semicolon, span := expression.span } [expression.inRole (some .expression)]

def returning (span : Span) (value : Tree) : Tree :=
  .node { kind := .returnStmt, span } [value.inRole (some .value)]

def assigning (span : Span) (op : Option Kind) (target value : Tree) : Tree :=
  .node { kind := .assign, span, assignOp := op } [target, value]

def joining (kind : Kind) (span : Span) (left right : Tree) : Tree :=
  .node { kind, span } [left.inRole none, right.inRole none]

def statementsOf (branch : Tree) : List Tree :=
  if branch.kind = .block then branch.children else [branch]

/-- What takes the place of an `if` that is reduced. -/
inductive Reduces (t : Tree) : List Tree → Prop where
  | returns {c p q a b : Tree} (parts : t.IsIf c p (some q)) (first : p.returned? = some a)
      (second : q.returned? = some b) :
      Reduces t [(returning t.span (choice c a b)).inRole t.head.role]
  | assigns {c p q e f x y a b : Tree} (parts : t.IsIf c p (some q))
      (first : p.expression? = some e) (second : q.expression? = some f)
      (alike : e.AssignAlike f x y a b) :
      Reduces t [(performing (assigning t.span e.head.assignOp x (choice c a b))).inRole t.head.role]
  | chooses {c p q a b : Tree} (parts : t.IsIf c p (some q)) (first : p.expression? = some a)
      (second : q.expression? = some b) :
      Reduces t [(performing (choice c a b)).inRole t.head.role]
  | disjoins {c d p a : Tree} (parts : t.IsIf c p none) (negation : c.kind = .not)
      (operand : c.nth? 0 = some d) (first : p.expression? = some a) :
      Reduces t [(performing (joining .or t.span d a)).inRole t.head.role]
  | conjoins {c p a : Tree} (parts : t.IsIf c p none) (first : p.expression? = some a) :
      Reduces t [(performing (joining .and t.span c a)).inRole t.head.role]
  | lifts {c p q : Tree} {before behind : List Tree} (parts : t.IsIf c p (some q))
      (split : t.children = before ++ q :: behind) (leaves : p.leavesFunction)
      (plain : q.kind = .block → q.declaresBlockNames = false) :
      Reduces t (.node t.head (before ++ behind) :: (statementsOf q).map (·.inRole none))

/-! ### Building -/

variable {s s' : Store} {id parent condition first second expression : NodeId} {c a b t : Tree}
  {ready : List (NodeId × Tree)}

/-- The conditional expression of three trees that lie ready. -/
theorem prepares_conditional
    (h : Prepared s id parent s' [id] ((condition, c) :: (first, a) :: (second, b) :: ready))
    (hcondition : condition ≠ id) (hfirst : first ≠ id) (hsecond : second ≠ id) :
    Gives (conditional condition first second) s' fun new s'' =>
      new ≠ id ∧ Prepared s id parent s'' [id] ((new, choice c a b) :: ready) := by
  rw [conditional, gives_bind, gives_get]
  have hspan : s'.span condition = c.span :=
    congrArg Head.span (h.shows _ List.mem_cons_self).head_eq
  rw [hspan]
  rcases hadd : s'.add { kind := .conditional, span := c.span } with ⟨new, s₁⟩
  refine ⟨h.new_ne hadd, ?_⟩
  have h₁ := (h.add hadd).append_setRole hcondition (by simpa using hcondition) none
  have h₂ := h₁.append_setRole hfirst (by simpa using hfirst) none
  exact h₂.append_setRole hsecond (by simpa using hsecond) none

/-- An expression that lies ready takes the place as a statement. -/
theorem puts_putExpression (h : Prepared s id parent s' [id] ((expression, t) :: ready))
    (hexpression : expression ≠ id) :
    Gives (putExpression id expression) s' fun _ s'' => ∃ news, Puts s s'' id news ∧
      news.map s''.view = [(performing t).inRole (s.role? id)] := by
  rw [putExpression, gives_bind, gives_get]
  have hspan : s'.span expression = t.span :=
    congrArg Head.span (h.shows _ List.mem_cons_self).head_eq
  rw [wrapExpression, hspan]
  rcases hadd : s'.add { kind := .semicolon, span := t.span } with ⟨new, s₁⟩
  have h₁ := (h.add hadd).append_setRole hexpression (by simpa using hexpression)
    (some .expression)
  obtain ⟨hputs, hshows⟩ := h₁.replace (h.new_ne hadd)
  rw [gives_set]
  exact ⟨[new], hputs, by rw [List.map_singleton, appendAs, hputs.forest.view_eq hshows]; rfl⟩

theorem puts_mergeReturns
    (h : Prepared s id parent s' [id] ((condition, c) :: (first, a) :: (second, b) :: ready))
    (hcondition : condition ≠ id) (hfirst : first ≠ id) (hsecond : second ≠ id) :
    Gives (mergeReturns id condition first second) s' fun _ s'' => ∃ news, Puts s s'' id news ∧
      news.map s''.view = [(returning (s.span id) (choice c a b)).inRole (s.role? id)] := by
  rw [mergeReturns, gives_bind, gives_get]
  dsimp only
  rw [show s'.span id = s.span id from congrArg Head.span h.self, gives_bind]
  refine (prepares_conditional h hcondition hfirst hsecond).mono fun value s₁ hvalue => ?_
  rw [gives_bind, gives_get]
  rcases hadd : s₁.add { kind := .returnStmt, span := s.span id } with ⟨new, s₂⟩
  have h₁ := (hvalue.2.add hadd).append_setRole hvalue.1 (by simpa using hvalue.1) (some .value)
  obtain ⟨hputs, hshows⟩ := h₁.replace (hvalue.2.new_ne hadd)
  rw [gives_set]
  exact ⟨[new], hputs, by rw [List.map_singleton, appendAs, hputs.forest.view_eq hshows]; rfl⟩

theorem puts_mergeAssignments {e target valueA valueB : NodeId} {x : Tree}
    (h : Prepared s id parent s' [id]
      ((condition, c) :: (valueA, a) :: (valueB, b) :: (target, x) :: ready))
    (hcondition : condition ≠ id) (hvalueA : valueA ≠ id) (hvalueB : valueB ≠ id)
    (htarget : target ≠ id) :
    Gives (mergeAssignments id condition e target valueA valueB) s' fun _ s'' =>
      ∃ news, Puts s s'' id news ∧ news.map s''.view =
        [(performing (assigning (s.span id) (s'.head e).assignOp x (choice c a b))).inRole
          (s.role? id)] := by
  rw [mergeAssignments, gives_bind, gives_get, gives_bind]
  refine (prepares_conditional h hcondition hvalueA hvalueB).mono fun value s₁ hvalue => ?_
  rw [gives_bind, gives_get, show s'.span id = s.span id from congrArg Head.span h.self]
  rcases hadd : s₁.add
    { kind := .assign, span := s.span id, assignOp := (s'.head e).assignOp } with ⟨new, s₂⟩
  have hready := (hvalue.2.add hadd).sub (((List.Perm.swap _ _ ready).cons _).subperm)
  have h₁ := hready.append htarget (by simpa using htarget)
  have h₂ := h₁.append hvalue.1 (by simpa using hvalue.1)
  rw [gives_bind, gives_set]
  exact puts_putExpression h₂ (hvalue.2.new_ne hadd)

/-! ### Copying -/

theorem prepares_copyPlain {x : NodeId} (h : Prepared s id parent s' [id] ready)
    (hx : (x, t) ∈ ready) :
    Gives (copyPlain x) s' fun copy s'' =>
      copy ≠ id ∧ Prepared s id parent s'' [id] ((copy, t.inRole none) :: ready) := by
  rw [copyPlain, gives_bind, gives_get, Store.copy, h.forest.view_eq (h.shows _ hx)]
  rcases hgraft : s'.graft t with ⟨copy, s₁⟩
  have hne : copy ≠ id := by
    obtain rfl : s'.size = copy := (graft_spec s' t).1.symm.trans (congrArg Prod.fst hgraft)
    exact Nat.ne_of_gt ((parent?_lt h.link).trans_le h.size_le)
  exact ⟨hne, (h.graft hgraft).setRole hne none⟩


/-! ### Lifting -/

/-- Trees that lie ready are put behind the last node in the place, one behind the other. -/
theorem prepared_insertBehind {anchor : NodeId} {front : List NodeId}
    {statements : List (NodeId × Tree)}
    (h : Prepared s id parent s' (front ++ [anchor]) (statements ++ ready))
    (hne : ∀ r ∈ statements, r.1 ≠ id ∧ r.1 ∉ front ++ [anchor]) :
    Prepared s id parent (insertBehind anchor (statements.map Prod.fst) s')
      (front ++ [anchor] ++ statements.map Prod.fst)
      (statements.map (fun r => (r.1, r.2.inRole none)) ++ ready) := by
  induction statements generalizing s' front anchor ready with
  | nil => simpa [insertBehind] using h
  | cons r rest ih =>
      obtain ⟨child, t⟩ := r
      rw [List.forall_mem_cons] at hne
      have hapart := (List.pairwise_cons.mp h.apart).1
      have hinserted := (h.insertAfter hne.1.1 hne.1.2 none).sub List.perm_middle.subperm
      have hrest : ∀ r ∈ rest, r.1 ≠ id ∧ r.1 ∉ front ++ [anchor] ++ [child] := by
        intro r hr
        refine ⟨(hne.2 r hr).1, fun hmem => ?_⟩
        rcases List.mem_append.mp hmem with hmem | hmem
        · exact (hne.2 r hr).2 hmem
        · rw [List.mem_singleton] at hmem
          exact (hapart r (List.mem_append_left _ hr)).2 (hmem ▸ .refl)
      have hdone := (ih hinserted hrest).sub List.perm_middle.symm.subperm
      simpa [insertBehind] using hdone

theorem leavesFunction_view (hs : s.Forest) (statement : NodeId) :
    (s.view statement).leavesFunction = leavesFunction s statement := by
  rw [Tree.leavesFunction, leavesFunction, kind_view, hs.children_view, List.getLast?_map]
  cases (s.children statement).getLast? with
  | none => rfl
  | some last =>
      simp only [Option.map_some, Option.any_some]
      exact kind_view last ▸ rfl

theorem declaresBlockNames_view (hs : s.Forest) (block : NodeId) :
    (s.view block).declaresBlockNames = s.declaresBlockNames block := by
  rw [Tree.declaresBlockNames, declaresBlockNames, hs.children_view, List.any_map]
  refine congrArg (List.any _) (funext fun c => ?_)
  simp only [Function.comp_apply]
  exact kind_view c ▸ rfl

variable {thenPart elsePart : NodeId}

/-- An `if` loses its second branch, and the statements of that come behind it. -/
theorem lifts_insertBehind (hs : s.Forest)
    (hparts : (s.view id).IsIf c t (some (s.view elsePart))) (helse : elsePart ∈ s.children id)
    (hleaves : t.leavesFunction)
    (hplain : (s.view elsePart).kind = .block → (s.view elsePart).declaresBlockNames = false)
    (statements : List (NodeId × Tree))
    (hready : Prepared s id parent (s.remove elsePart) [id]
      (statements ++ [(id, .node (s.head id) (((s.children id).filter (· ≠ elsePart)).map s.view))]))
    (hne : ∀ r ∈ statements, r.1 ≠ id)
    (hmap : statements.map (·.2.inRole none) = (statementsOf (s.view elsePart)).map (·.inRole none)) :
    ∃ news, Puts s (insertBehind id (statements.map Prod.fst) (s.remove elsePart)) id news ∧
      Reduces (s.view id)
        (news.map (insertBehind id (statements.map Prod.fst) (s.remove elsePart)).view) := by
  have hfirst : Prepared s id parent (s.remove elsePart) ([] ++ [id]) _ := hready
  have hdone := prepared_insertBehind hfirst fun r hr => ⟨hne r hr, by simpa using hne r hr⟩
  refine ⟨_, hdone.puts, ?_⟩
  obtain ⟨before, behind, hsplit⟩ := List.append_of_mem helse
  have hnodup : (before ++ elsePart :: behind).Nodup := hsplit ▸ hs.nodup id
  have hfilter : (s.children id).filter (· ≠ elsePart) = before ++ behind := by
    have hself : ∀ l : List NodeId, elsePart ∉ l → l.filter (· ≠ elsePart) = l := by
      refine fun l hl => List.filter_eq_self.mpr fun c hc => decide_eq_true ?_
      rintro rfl
      exact hl hc
    have hbefore : elsePart ∉ before :=
      fun hmem => List.disjoint_of_nodup_append hnodup hmem List.mem_cons_self
    have hbehind : elsePart ∉ behind :=
      (List.nodup_cons.mp (List.nodup_append.mp hnodup).2.1).1
    rw [hsplit, List.filter_append, List.filter_cons_of_neg (by simp), hself _ hbefore,
      hself _ hbehind]
  have hview : ∀ r ∈ statements.map (fun r => (r.1, r.2.inRole none)) ++
      [(id, .node (s.head id) (((s.children id).filter (· ≠ elsePart)).map s.view))],
      (insertBehind id (statements.map Prod.fst) (s.remove elsePart)).view r.1 = r.2 :=
    fun r hr => hdone.forest.view_eq (hdone.shows r hr)
  have hstatements : (statements.map Prod.fst).map
      (insertBehind id (statements.map Prod.fst) (s.remove elsePart)).view =
      (statementsOf (s.view elsePart)).map (·.inRole none) := by
    rw [← hmap, List.map_map]
    refine List.map_congr_left fun r hr => ?_
    exact hview (r.1, r.2.inRole none) (List.mem_append_left _ (List.mem_map_of_mem hr))
  have hid := hview (id, _) (List.mem_append_right _ (List.mem_singleton_self _))
  rw [List.map_append, List.nil_append, List.map_singleton, hid, hstatements, hfilter,
    List.map_append, ← head_view]
  refine .lifts hparts ?_ hleaves hplain
  rw [hs.children_view, hsplit, List.map_append, List.map_cons]

theorem merges_liftElse (hs : s.Forest) (hlink : s.parent? id = some parent)
    (hparts : (s.view id).IsIf c (s.view thenPart) (some (s.view elsePart)))
    (helse : elsePart ∈ s.children id) :
    Gives (liftElse id thenPart elsePart) s fun changed s' => changed = true →
      ∃ news, Puts s s' id news ∧ Reduces (s.view id) (news.map s'.view) := by
  have hready := Prepared.start_remove hs hlink helse
  have hchild := hs.parent?_of_mem helse
  have helseId : elsePart ≠ id := fun heq => hs.acyclic elsePart id hchild (heq ▸ .refl)
  rw [liftElse, gives_bind, gives_get]
  refine gives_ite (fun hcond => ?_) fun _ => gives_unchanged
  obtain ⟨-, hleaves⟩ := Bool.and_eq_true_iff.mp hcond
  rw [← leavesFunction_view hs] at hleaves
  by_cases hkind : s.kind elsePart = .block
  · rw [if_pos hkind]
    refine gives_ite (fun _ => gives_unchanged) fun hplain => ?_
    rw [gives_bind, gives_set, gives_pure]
    rintro -
    rw [← declaresBlockNames_view hs, Bool.not_eq_true] at hplain
    have hchildren : (s.remove elsePart).children elsePart = s.children elsePart := by
      rw [remove, Store.setRole, children_modifyHead, children_detach, hchild,
        if_neg fun heq => helseId (Option.some_inj.mp heq).symm]
    have hparts' := (hready.sub (List.Perm.swap _ _ []).subperm).parts
    rw [hchildren] at hparts'
    have hlift := lifts_insertBehind hs hparts helse hleaves (fun _ => hplain) _ hparts' ?_ ?_
    · simpa [Function.comp_def] using hlift
    · refine List.forall_mem_map.mpr fun d hd => ?_
      rintro rfl
      exact hs.acyclic _ _ (hs.parent?_of_mem hd) (within_of_parent hchild)
    · -- The statements of the branch show what they showed.
      have hview := hready.forest.view_eq
        (hready.shows (elsePart, _) (List.mem_cons_of_mem _ (List.mem_singleton_self _)))
      have hstatements := congrArg Tree.children hview
      rw [hready.forest.children_view, hchildren, Tree.children_inRole] at hstatements
      rw [statementsOf, if_pos (by rwa [kind_view]), ← hstatements, List.map_map, List.map_map]
      rfl
  · rw [if_neg hkind, gives_bind, gives_set, gives_pure]
    rintro -
    have hnot : (s.view elsePart).kind ≠ .block := by rwa [kind_view]
    refine lifts_insertBehind hs hparts helse hleaves (fun hblock => absurd hblock hnot)
      [(elsePart, (s.view elsePart).inRole none)]
      (hready.sub (List.Perm.swap _ _ []).subperm) (by simpa using helseId) ?_
    rw [statementsOf, if_neg hnot]
    simp

/-! ### Reducing -/

theorem expression?_view (hs : s.Forest) (statement : NodeId) :
    (s.view statement).expression? = (s.expressionOf? statement).map s.view := by
  rw [Tree.expression?, expressionOf?, kind_view, hs.child?_view]
  split <;> rfl

theorem returned?_view (hs : s.Forest) (statement : NodeId) :
    (s.view statement).returned? =
      (if s.kind statement = .returnStmt then s.child? statement .value else none).map s.view := by
  rw [Tree.returned?, kind_view, hs.child?_view]
  split <;> rfl

/-- Below an assignment a text does not depend on what is around it. -/
theorem render_eq_of_assign {x p : NodeId} (hlink : s.parent? x = some p)
    (hkind : s.kind p = .assign) : s.render {} x = (s.view x).render {} := by
  have hcall : s.isUnderCall x = false := by
    rw [isUnderCall, parentKind?, hlink, Option.map_some, hkind]
    rfl
  have hsole : s.isSoleArgument x = false := by
    rw [isSoleArgument, hlink]
    dsimp only
    rw [hkind]
    rfl
  rw [Store.render, site, hcall, hsole]
  rfl

/-- Two assignments with a common target have it as written. -/
theorem assignAlike_of_commonTarget? (hs : s.Forest) {target valueA valueB : NodeId}
    (h : commonTarget? s first second = some (target, valueA, valueB)) :
    s.nth? first 0 = some target ∧ s.nth? first 1 = some valueA ∧ s.nth? second 1 = some valueB ∧
      ∃ y, (s.view first).AssignAlike (s.view second) (s.view target) y (s.view valueA)
        (s.view valueB) := by
  simp only [commonTarget?, Option.bind_eq_bind, Option.bind_eq_some_iff] at h
  obtain ⟨_, hguard, x, hx, u, hu, v, hv, heq⟩ := h
  obtain ⟨rfl, rfl, rfl⟩ : x = target ∧ u = valueA ∧ v = valueB := by simpa [pure] using heq
  have hsame := (Option.guard_eq_some' _).mp hguard
  simp only [Bool.and_eq_true, beq_iff_eq] at hsame
  obtain ⟨⟨hfirst, hsecond⟩, hsame⟩ := hsame
  rw [sameTarget, hx] at hsame
  simp only [Bool.and_eq_true, beq_iff_eq] at hsame
  obtain ⟨hop, hsame⟩ := hsame
  refine ⟨hx, hu, hv, ?_⟩
  split at hsame
  case h_2 => cases hsame
  case h_1 x' y hx' hy =>
      obtain rfl : x = x' := Option.some_inj.mp hx'
      simp only [Bool.and_eq_true, beq_iff_eq] at hsame
      refine ⟨s.view y, ?_, ?_, ?_, ?_, ?_, ?_, ?_, ?_, ?_⟩
      · rw [kind_view, hfirst]
      · rw [kind_view, hsecond]
      · rw [head_view, head_view, hop]
      · rw [hs.nth?_view, hx]; rfl
      · rw [hs.nth?_view, hy]; rfl
      · rw [hs.nth?_view, hu]; rfl
      · rw [hs.nth?_view, hv]; rfl
      · rw [Tree.isPlainTarget, kind_view]
        revert hsame
        cases s.kind x <;> simp
      · rw [← render_eq_of_assign (hs.parent?_of_mem (mem_of_nth? hx)) hfirst,
          ← render_eq_of_assign (hs.parent?_of_mem (mem_of_nth? hy)) hsecond]
        exact hsame.2

/-- Nodes that are found by different roles differ. -/
theorem ne_of_child? {role role' : Role} {x y : NodeId} (hx : s.child? id role = some x)
    (hy : s.child? id role' = some y) (hne : role ≠ role') : x ≠ y := by
  rintro rfl
  exact hne (Option.some_inj.mp ((role?_of_child? hx).symm.trans (role?_of_child? hy)))

theorem isIf_view (hs : s.Forest) (hkind : s.kind id = .ifElse) {branch : Option NodeId}
    (hcondition : s.child? id .condition = some condition)
    (hthen : s.child? id .thenPart = some thenPart) (helse : s.child? id .elsePart = branch) :
    (s.view id).IsIf (s.view condition) (s.view thenPart) (branch.map s.view) where
  kind := by rw [kind_view, hkind]
  condition := by rw [hs.child?_view, hcondition]; rfl
  thenPart := by rw [hs.child?_view, hthen]; rfl
  elsePart := by rw [hs.child?_view, helse]

/-- What an edit of an `if` puts in its place. -/
def Merges (id : NodeId) (m : Edit Bool) (s : Store) : Prop :=
  Gives m s fun changed s' => changed = true →
    ∃ news, Puts s s' id news ∧ Reduces (s.view id) (news.map s'.view)

theorem merges_mergeExpressions (hs : s.Forest)
    (hparts : (s.view id).IsIf (s.view condition) (s.view thenPart) (some (s.view elsePart)))
    (hready : Prepared s id parent s [id]
      [(first, s.view first), (second, s.view second), (condition, s.view condition)])
    (hcondition : condition ≠ id) (hfirst : ∀ x, s.Within x first → x ≠ id)
    (hsecond : ∀ x, s.Within x second → x ≠ id)
    (hfirstExpression : (s.view thenPart).expression? = some (s.view first))
    (hsecondExpression : (s.view elsePart).expression? = some (s.view second)) :
    Gives (mergeExpressions id condition first second) s fun _ s' =>
      ∃ news, Puts s s' id news ∧ Reduces (s.view id) (news.map s'.view) := by
  rw [mergeExpressions, gives_bind, gives_get]
  split
  case h_1 target valueA valueB htarget =>
      obtain ⟨hx, hvalueA, hvalueB, y, halike⟩ := assignAlike_of_commonTarget? hs htarget
      have hxMem := mem_of_nth? hx
      have haMem := mem_of_nth? hvalueA
      have hbMem := mem_of_nth? hvalueB
      have hne : target ≠ valueA := by
        rintro rfl
        obtain ⟨hlt, -⟩ := List.getElem?_eq_some_iff.mp hx
        exact absurd ((List.getElem?_inj hlt (hs.nodup first)).mp (hx.trans hvalueA.symm)) (by decide)
      have hbelow : ∀ {c}, c ∈ s.children first → s.Within c first :=
        fun hc => within_of_parent (hs.parent?_of_mem hc)
      -- Instead of the assignments, their target and their values lie ready.
      have h₁ := hready.some_parts [target, valueA] (by simp [hxMem, haMem])
        (by simp [hne])
      have h₂ := (h₁.sub (@List.perm_middle _ _ [_, _] _).symm.subperm).part hbMem
      have h₃ := h₂.sub
        ((((List.Perm.swap _ _ _).cons _).cons _).trans (List.reverse_perm [_, _, _, _])).subperm
      refine (puts_mergeAssignments (e := first) h₃ hcondition (hfirst _ (hbelow haMem))
        (hsecond _ (within_of_parent (hs.parent?_of_mem hbMem)))
        (hfirst _ (hbelow hxMem))).mono fun _ s' hnews => ?_
      obtain ⟨news, hputs, hviews⟩ := hnews
      refine ⟨news, hputs, hviews ▸ ?_⟩
      have hreduces := Reduces.assigns hparts hfirstExpression hsecondExpression halike
      rwa [Tree.span, head_view, head_view] at hreduces
  case h_2 =>
      rw [gives_bind]
      have h₁ := hready.sub (@List.perm_append_comm _ [_] [_, _]).subperm
      refine (prepares_conditional h₁ hcondition (hfirst _ .refl) (hsecond _ .refl)).mono
        fun value s₁ hvalue => (puts_putExpression hvalue.2 hvalue.1).mono fun _ s' hnews => ?_
      obtain ⟨news, hputs, hviews⟩ := hnews
      refine ⟨news, hputs, hviews ▸ ?_⟩
      have hreduces := Reduces.chooses hparts hfirstExpression hsecondExpression
      rwa [head_view] at hreduces

theorem merges_reduceBranches (hs : s.Forest) (hlink : s.parent? id = some parent)
    (hkind : s.kind id = .ifElse) (hcondition : s.child? id .condition = some condition)
    (hthen : s.child? id .thenPart = some thenPart)
    (helse : s.child? id .elsePart = some elsePart) :
    Merges id (reduceBranches id condition thenPart elsePart) s := by
  have hparts := isIf_view hs hkind hcondition hthen helse
  have hthenMem := mem_of_child? hthen
  have helseMem := mem_of_child? helse
  have hconditionId := hs.ne_of_within (mem_of_child? hcondition) .refl
  have hbranches : Prepared s id parent s [id]
      ([thenPart, elsePart, condition].map fun c => (c, s.view c)) := by
    refine Prepared.start_children hs hlink ?_ ?_
    · simp [mem_of_child? hcondition, hthenMem, helseMem]
    · simp [ne_of_child? hthen helse, ne_of_child? hthen hcondition, ne_of_child? helse hcondition]
  -- Instead of the branches, parts of them lie ready.
  have hready : ∀ first ∈ s.children thenPart, ∀ second ∈ s.children elsePart,
      Prepared s id parent s [id]
        [(first, s.view first), (second, s.view second), (condition, s.view condition)] := by
    intro first hfirst second hsecond
    have h₁ := (hbranches.part hfirst).sub (List.Perm.swap _ _ _).subperm
    exact (h₁.part hsecond).sub (List.Perm.swap _ _ _).subperm
  have hbelow : ∀ {branch c x}, branch ∈ s.children id → c ∈ s.children branch → s.Within x c →
      x ≠ id := fun hbranch hc hx =>
    hs.ne_of_within hbranch (hx.trans (within_of_parent (hs.parent?_of_mem hc)))
  rw [Merges, reduceBranches, gives_bind, gives_get]
  split
  case h_1 first second hvalues =>
      simp only [returnedValues?, Option.bind_eq_bind, Option.bind_eq_some_iff] at hvalues
      obtain ⟨_, hguard, a, ha, b, hb, heq⟩ := hvalues
      obtain ⟨rfl, rfl⟩ : a = first ∧ b = second := by simpa [pure] using heq
      have hkinds := (Option.guard_eq_some' _).mp hguard
      simp only [Bool.and_eq_true, beq_iff_eq] at hkinds
      have hreturned : (s.view thenPart).returned? = some (s.view a) ∧
          (s.view elsePart).returned? = some (s.view b) := by
        rw [returned?_view hs, returned?_view hs, if_pos hkinds.1, if_pos hkinds.2, ha, hb]
        exact ⟨rfl, rfl⟩
      have haMem := mem_of_child? ha
      have hbMem := mem_of_child? hb
      have h₁ := (hready a haMem b hbMem).sub
        (@List.perm_append_comm _ [_] [_, _]).subperm
      have hmerged := puts_mergeReturns h₁ hconditionId (hbelow hthenMem haMem .refl)
        (hbelow helseMem hbMem .refl)
      rw [gives_bind]
      refine hmerged.mono fun _ s' hnews => ?_
      rw [gives_pure]
      rintro -
      obtain ⟨news, hputs, hviews⟩ := hnews
      refine ⟨news, hputs, hviews ▸ ?_⟩
      have hreduces := Reduces.returns hparts hreturned.1 hreturned.2
      rwa [Tree.span, head_view] at hreduces
  case h_2 =>
      split
      case h_1 first second hvalues =>
          simp only [branchExpressions?, Option.bind_eq_bind, Option.bind_eq_some_iff] at hvalues
          obtain ⟨a, ha, b, hb, heq⟩ := hvalues
          obtain ⟨rfl, rfl⟩ : a = first ∧ b = second := by simpa [pure] using heq
          have haMem := mem_of_child? (kind_role_of_expressionOf? ha).2
          have hbMem := mem_of_child? (kind_role_of_expressionOf? hb).2
          have hmerged := merges_mergeExpressions hs hparts (hready a haMem b hbMem) hconditionId
            (fun x hx => hbelow hthenMem haMem hx) (fun x hx => hbelow helseMem hbMem hx)
            (by rw [expression?_view hs, ha]; rfl) (by rw [expression?_view hs, hb]; rfl)
          rw [gives_bind]
          exact hmerged.mono fun _ s' hnews _ => hnews
      case h_2 => exact merges_liftElse hs hlink hparts (mem_of_child? helse)

/-- A logical expression of copies of two trees takes the place where it is shorter. -/
theorem puts_logical {kind : Kind} {left : NodeId} {u e : Tree}
    (hready : Prepared s id parent s [id] [(left, u), (expression, e)]) :
    Gives (do
      let left ← copyPlain left
      let right ← copyPlain expression
      let (logical, s) := (← get).add { kind, span := s.span id }
      let (statement, s) := ((s.append logical left).append logical right).wrapExpression logical
      set s
      if s.textSize statement < s.textSize id then
        modify (Store.replace id statement)
        return true
      else return false) s fun changed s' => changed = true →
      ∃ news, Puts s s' id news ∧
        news.map s'.view = [(performing (joining kind (s.span id) u e)).inRole (s.role? id)] := by
  rw [gives_bind]
  refine (prepares_copyPlain hready List.mem_cons_self).mono fun copy s₁ hcopy => ?_
  rw [gives_bind]
  refine (prepares_copyPlain (t := e) hcopy.2 (x := expression) (by simp)).mono
    fun copy' s₂ hcopy' => ?_
  rw [gives_bind, gives_get]
  rcases hadd : s₂.add { kind, span := s.span id } with ⟨logical, s₃⟩
  have h₁ := (hcopy'.2.add hadd).sub ((List.Perm.swap _ _ _).cons _).subperm
  have h₂ := h₁.append hcopy.1 (by simpa using hcopy.1)
  have h₃ := h₂.append hcopy'.1 (by simpa using hcopy'.1)
  have hlogical := hcopy'.2.new_ne hadd
  have hspan : ((s₃.append logical copy).append logical copy').span logical = s.span id := by
    rw [span, (h₃.shows _ List.mem_cons_self).head_eq]
    rfl
  dsimp only
  rw [wrapExpression, hspan]
  rcases hwrap : ((s₃.append logical copy).append logical copy').add
    { kind := .semicolon, span := s.span id } with ⟨statement, s₄⟩
  have h₄ := (h₃.add hwrap).append_setRole hlogical (by simpa using hlogical) (some .expression)
  obtain ⟨hputs, hshows⟩ := h₄.replace (h₃.new_ne hwrap)
  dsimp only
  rw [gives_bind, gives_set]
  refine gives_ite (fun _ => ?_) fun _ => gives_unchanged
  rw [gives_bind, gives_modify, gives_pure]
  rintro -
  exact ⟨[statement], hputs, by rw [List.map_singleton, appendAs, hputs.forest.view_eq hshows]; rfl⟩

theorem merges_toLogical (hs : s.Forest) (hlink : s.parent? id = some parent)
    (hkind : s.kind id = .ifElse) (hcondition : s.child? id .condition = some condition)
    (hthen : s.child? id .thenPart = some thenPart) (helse : s.child? id .elsePart = none) :
    Merges id (toLogical id condition thenPart) s := by
  have hparts := isIf_view hs hkind hcondition hthen helse
  have hbranches : Prepared s id parent s [id]
      ([condition, thenPart].map fun c => (c, s.view c)) := by
    refine Prepared.start_children hs hlink ?_ ?_
    · simp [mem_of_child? hcondition, mem_of_child? hthen]
    · simp [ne_of_child? hcondition hthen]
  rw [Merges, toLogical, gives_bind, gives_get]
  split
  case h_2 => exact gives_unchanged
  case h_1 expression kind left hexpression hform =>
      have hmem := mem_of_child? (kind_role_of_expressionOf? hexpression).2
      have hfirst : (s.view thenPart).expression? = some (s.view expression) := by
        rw [expression?_view hs, hexpression]
        rfl
      have hready : ∀ {u}, Prepared s id parent s [id] [(left, u), (thenPart, s.view thenPart)] →
          Prepared s id parent s [id] [(left, u), (expression, s.view expression)] := fun h =>
        ((h.sub (List.Perm.swap _ _ _).subperm).part hmem).sub (List.Perm.swap _ _ _).subperm
      rw [logicalForm] at hform
      split at hform
      case isTrue hnot =>
          obtain ⟨operand, hoperand, heq⟩ := Option.map_eq_some_iff.mp hform
          obtain ⟨rfl, rfl⟩ := Prod.mk.inj heq
          have hnegation : (s.view condition).kind = .not := by rw [kind_view, hnot.1]
          have hnth : (s.view condition).nth? 0 = some (s.view operand) := by
            rw [hs.nth?_view, hoperand]
            rfl
          refine (puts_logical (hready (hbranches.part (mem_of_nth? hoperand)))).mono
            fun changed s' hnews hchanged => ?_
          obtain ⟨news, hputs, hviews⟩ := hnews hchanged
          have hreduces := Reduces.disjoins hparts hnegation hnth hfirst
          rw [Tree.span, head_view] at hreduces
          exact ⟨news, hputs, hviews ▸ hreduces⟩
      case isFalse =>
          obtain ⟨rfl, rfl⟩ := Prod.mk.inj (Option.some_inj.mp hform)
          refine (puts_logical (hready hbranches)).mono fun changed s' hnews hchanged => ?_
          obtain ⟨news, hputs, hviews⟩ := hnews hchanged
          have hreduces := Reduces.conjoins hparts hfirst
          rw [Tree.span, head_view] at hreduces
          exact ⟨news, hputs, hviews ▸ hreduces⟩

/-- What takes the place of an `if`. -/
theorem merges_reduceIf (hs : s.Forest) (hlink : s.parent? id = some parent)
    (hkind : s.kind id = .ifElse) : Merges id (reduceIf id) s := by
  rw [Merges, reduceIf, gives_bind, gives_get]
  split
  case h_2 => exact gives_unchanged
  case h_1 condition thenPart hcondition hthen =>
      split
      case h_1 elsePart helse =>
          exact merges_reduceBranches hs hlink hkind hcondition hthen helse
      case h_2 helse => exact merges_toLogical hs hlink hkind hcondition hthen helse

end Conditions

end ScriptMin
