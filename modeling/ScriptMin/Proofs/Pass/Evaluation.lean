import ScriptMin.Proofs.Pass.Merging
import ScriptMin.Proofs.Pass.Soundness
import ScriptMin.Proofs.Tree.Tracing

/-!
The reduction of conditions keeps what is observed of a program: whatever is called, read and
written happens in the same order. The exception is the merge of two assignments to one, which
prepares the target before the condition is evaluated.
-/

namespace ScriptMin

variable {m : Type → Type} [Monad m]

namespace Meaning

variable (M : Meaning m) {α β : Type}

def choose (condition : Tree) (first second : m α) : m α :=
  M.value condition >>= fun v => if M.isTrue v then first else second

/-- Assigns the value of a computation to a target, which is prepared before. -/
def assigned (op : Option Kind) (target : Tree) (right : m M.Value) : m M.Value :=
  M.prepare op target >>= fun store => right >>= store

def performed (x : m α) : m (Option M.Exit) := x >>= fun _ => pure none

variable [LawfulMonad m] {M}

theorem choose_bind (c : Tree) (first second : m α) (f : α → m β) :
    M.choose c first second >>= f = M.choose c (first >>= f) (second >>= f) := by
  rw [choose, choose, bind_assoc]
  refine bind_congr fun v => ?_
  split <;> rfl

theorem performed_choose (c : Tree) (first second : m α) :
    M.performed (M.choose c first second) =
      M.choose c (M.performed first) (M.performed second) :=
  choose_bind c first second _

/-- A target that is prepared without effects may be prepared before a condition. -/
theorem assigned_choose {c x y : Tree} {op : Option Kind} {first second : m M.Value}
    {store : M.Value → m M.Value} (hx : M.prepare op x = pure store)
    (hy : M.prepare op y = pure store) :
    M.assigned op x (M.choose c first second) =
      M.choose c (M.assigned op x first) (M.assigned op y second) := by
  simp only [assigned, hx, hy, pure_bind, choose_bind]

end Meaning

namespace Conditions

open Meaning

variable {M : Meaning m} {t c p q a b e f x y : Tree}

/-! ### Parts of an `if` -/

theorem run_of_isIf (h : t.IsIf c p (some q)) : M.run t = M.choose c (M.run p) (M.run q) := by
  rw [M.run_if h.kind h.condition h.thenPart, h.elsePart]
  rfl

theorem run_of_isIf_none (h : t.IsIf c p none) : M.run t = M.choose c (M.run p) (pure none) := by
  rw [M.run_if h.kind h.condition h.thenPart, h.elsePart]
  rfl

theorem run_of_expression? (h : p.expression? = some e) : M.run p = M.performed (M.value e) := by
  rw [Tree.expression?] at h
  split at h
  · exact M.run_expression ‹_› h
  · cases h

theorem run_of_returned? (h : p.returned? = some e) :
    M.run p = M.value e >>= fun v => pure (some (M.returned v)) := by
  rw [Tree.returned?] at h
  split at h
  · exact M.run_return ‹_› h
  · cases h

/-! ### New trees -/

theorem value_choice : M.value (choice c a b) = M.choose c (M.value a) (M.value b) := by
  rw [M.value_conditional (t := choice c a b) rfl rfl rfl rfl]
  simp only [M.value_inRole]
  rfl

theorem run_performing : M.run (performing e) = M.performed (M.value e) := by
  have hchild : (performing e).child? .expression = some (e.inRole (some .expression)) := by
    simp [performing, Tree.child?, Tree.children]
  rw [M.run_expression (t := performing e) rfl hchild, M.value_inRole]
  rfl

theorem run_returning {span : Span} :
    M.run (returning span e) = M.value e >>= fun v => pure (some (M.returned v)) := by
  have hchild : (returning span e).child? .value = some (e.inRole (some .value)) := by
    simp [returning, Tree.child?, Tree.children]
  rw [M.run_return (t := returning span e) rfl hchild, M.value_inRole]

variable [LawfulMonad m]

theorem value_assigning {span : Span} {op : Option Kind} :
    M.value (assigning span op x e) = M.assigned op x (M.value e) :=
  value_assign_eq (t := assigning span op x e) rfl rfl rfl

theorem value_eq_first (h : e.AssignAlike f x y a b) :
    M.value e = M.assigned e.head.assignOp x (M.value a) :=
  value_assign_eq h.kind_first h.target_first h.value_first

theorem value_eq_second (h : e.AssignAlike f x y a b) :
    M.value f = M.assigned e.head.assignOp y (M.value b) := by
  rw [h.operator]
  exact value_assign_eq h.kind_second h.target_second h.value_second

/-- Operands behind `&&` are evaluated if the condition holds. -/
theorem performed_and {span : Span} :
    M.performed (M.value (joining .and span c a)) =
      M.choose c (M.performed (M.value a)) (pure none) := by
  rw [M.value_and (t := joining .and span c a) rfl rfl rfl, M.value_inRole, M.value_inRole,
    performed, bind_assoc]
  refine bind_congr fun v => ?_
  split
  · rfl
  · rw [pure_bind]

/-- Operands behind `||` are evaluated if the negated condition holds. -/
theorem performed_or {span : Span} (hkind : c.kind = .not) (hoperand : c.nth? 0 = some b) :
    M.performed (M.value (joining .or span b a)) =
      M.choose c (M.performed (M.value a)) (pure none) := by
  rw [M.value_or (t := joining .or span b a) rfl rfl rfl, M.value_inRole, M.value_inRole,
    performed, bind_assoc, choose, M.value_not hkind hoperand, bind_assoc]
  refine bind_congr fun v => ?_
  rw [pure_bind, M.isTrue_negated]
  cases M.isTrue v with
  | false => rfl
  | true => exact pure_bind _ _

/-! ### Lifted branches -/

/-- A branch that leaves the function never ends normally. -/
theorem run_of_leavesFunction (h : p.leavesFunction) : ∃ exit, M.run p = some <$> exit := by
  rw [Tree.leavesFunction] at h
  split at h
  · exact M.run_leaving (.inl ‹_›)
  · exact M.run_leaving (.inr ‹_›)
  · obtain ⟨last, hlast, hkind⟩ := (Option.any_eq_true _ _).mp h
    obtain ⟨exit, hexit⟩ := runList_leaving (M := M) hlast
      (by revert hkind; cases last.kind <;> simp)
    refine ⟨M.enclosed p.children exit, ?_⟩
    rw [M.run_block ‹_›]
    exact (congrArg _ hexit).trans (M.enclosed_map _ _ _)
  · cases h

/-- A block without names of its own runs like its statements. -/
theorem runList_statementsOf (hplain : q.kind = .block → q.declaresBlockNames = false) :
    M.runList ((statementsOf q).map (·.inRole none)) = M.run q := by
  have hroles : ∀ ts : List Tree, M.runList (ts.map (·.inRole none)) = M.runList ts := by
    intro ts
    induction ts with
    | nil => rfl
    | cons t ts ih => rw [List.map_cons, runList_cons, runList_cons, M.run_inRole, ih]
  rw [hroles, statementsOf]
  split
  case isTrue hkind =>
      rw [M.run_block hkind, M.enclosed_of_not_declared]
      · rfl
      · intro t ht
        have hnone := List.any_eq_false.mp (hplain hkind) t ht
        constructor <;> intro heq <;> rw [heq] at hnone <;> exact hnone rfl
  case isFalse => rw [runList_singleton]

theorem run_lifted {before behind : List Tree} (parts : t.IsIf c p (some q))
    (hdistinct : t.hasDistinctRoles) (split : t.children = before ++ q :: behind)
    (leaves : p.leavesFunction) (plain : q.kind = .block → q.declaresBlockNames = false) :
    M.runList (.node t.head (before ++ behind) :: (statementsOf q).map (·.inRole none)) =
      M.run t := by
  have hparts : (Tree.node t.head (before ++ behind)).IsIf c p none := by
    have hrole : q.head.role = some .elsePart := by
      have hfound := List.find?_some (show t.children.find? _ = some q from parts.elsePart)
      exact eq_of_beq hfound
    have hothers : ∀ role, role ≠ .elsePart →
        (Tree.node t.head (before ++ behind)).child? role = t.child? role := by
      intro role hne
      have hq : (q.head.role == some role) = false := by
        rw [hrole]
        exact beq_eq_false_iff_ne.mpr fun heq => hne (Option.some_inj.mp heq).symm
      rw [Tree.child?, Tree.child?, split, Tree.children, List.find?_append, List.find?_append,
        List.find?_cons, hq]
    rw [Tree.hasDistinctRoles, split, List.pairwise_append, List.pairwise_cons] at hdistinct
    obtain ⟨-, ⟨hbehind, -⟩, hbefore⟩ := hdistinct
    refine ⟨parts.kind, ?_, ?_, List.find?_eq_none.mpr fun r hr heq => ?_⟩
    · rw [hothers _ (by decide), parts.condition]
    · rw [hothers _ (by decide), parts.thenPart]
    · have heq := eq_of_beq heq
      rcases List.mem_append.mp hr with hr | hr
      · exact hbefore r hr q List.mem_cons_self (heq.trans hrole.symm)
      · exact hbehind r hr (hrole.trans heq.symm)
  obtain ⟨exit, hexit⟩ := run_of_leavesFunction (M := M) leaves
  rw [runList_cons, run_of_isIf_none hparts, runList_statementsOf plain, run_of_isIf parts, andThen,
    choose_bind, hexit]
  refine bind_congr fun v => ?_
  split
  · exact andThen_leaving exit _
  · exact pure_bind _ _

/-! ### Rewritten statements -/

/-- Both branches of an `if` assign to targets that are written alike, and one assignment of a
conditional value has taken the place of the `if`. It prepares its target before the condition is
evaluated, which makes no difference if that has no effect and the other target is the same. -/
inductive MergesAssignments (M : Meaning m) (t new : Tree) : Prop where
  | merge {c p q e f x y a b : Tree} (parts : t.IsIf c p (some q))
      (first : p.expression? = some e) (second : q.expression? = some f)
      (alike : e.AssignAlike f x y a b)
      (before : M.run t = M.performed (M.choose c
        (M.assigned e.head.assignOp x (M.value a)) (M.assigned e.head.assignOp y (M.value b))))
      (after : M.run new = M.performed
        (M.assigned e.head.assignOp x (M.choose c (M.value a) (M.value b))))
      (same : ∀ store, M.prepare e.head.assignOp x = pure store →
        M.prepare e.head.assignOp y = pure store → M.run new = M.run t)

/-- What takes the place of an `if` runs like the `if`, unless assignments are merged. -/
theorem run_of_reduces {news : List Tree} (h : Reduces t news) (hdistinct : t.hasDistinctRoles) :
    M.runList news = M.run t ∨ ∃ new, news = [new] ∧ MergesAssignments M t new := by
  cases h with
  | @returns c p q a b parts first second =>
      refine .inl ?_
      rw [runList_singleton, M.run_inRole, run_returning, value_choice, choose_bind,
        run_of_isIf parts, run_of_returned? first, run_of_returned? second]
  | @assigns c p q e f x y a b parts first second alike =>
      refine .inr ⟨_, rfl, ?_⟩
      have hbefore : M.run t = M.performed (M.choose c
          (M.assigned e.head.assignOp x (M.value a))
          (M.assigned e.head.assignOp y (M.value b))) := by
        rw [run_of_isIf parts, run_of_expression? first, run_of_expression? second,
          performed_choose, value_eq_first alike, value_eq_second alike]
      have hafter : M.run ((performing (assigning t.span e.head.assignOp x (choice c a b))).inRole
          t.head.role) = M.performed
            (M.assigned e.head.assignOp x (M.choose c (M.value a) (M.value b))) := by
        rw [M.run_inRole, run_performing, value_assigning, value_choice]
      refine .merge parts first second alike hbefore hafter fun store hx hy => ?_
      rw [hbefore, hafter, assigned_choose hx hy]
  | @chooses c p q a b parts first second =>
      refine .inl ?_
      rw [runList_singleton, M.run_inRole, run_performing, value_choice, performed_choose,
        run_of_isIf parts, run_of_expression? first, run_of_expression? second]
  | @disjoins c d p a parts negation operand first =>
      refine .inl ?_
      rw [runList_singleton, M.run_inRole, run_performing, performed_or negation operand,
        run_of_isIf_none parts, run_of_expression? first]
  | @conjoins c p a parts first =>
      refine .inl ?_
      rw [runList_singleton, M.run_inRole, run_performing, performed_and, run_of_isIf_none parts,
        run_of_expression? first]
  | lifts parts split leaves plain => exact .inl (run_lifted parts hdistinct split leaves plain)

end Conditions

namespace Blocks

/-- The store in which a round of the reduction looks at what a node is, when it has been over the
nodes before. -/
def storeAt (s : Store) (before : List NodeId) (id : NodeId) : Store :=
  ((Expressions.removeParens id).run ((sweep reduceNode before).run s).2).2

/-- A round goes on from there. -/
theorem run_sweep_storeAt (s : Store) (before behind : List NodeId) (id : NodeId) :
    ((sweep reduceNode (before ++ id :: behind)).run s).2 =
      ((sweep reduceNode behind).run ((reduceForm id).run (storeAt s before id)).2).2 := by
  induction before generalizing s with
  | nil => rfl
  | cons first rest ih => exact ih ((reduceNode first).run s).2

theorem forest_storeAt {s : Store} (h : s.Forest) (before : List NodeId) (id : NodeId) :
    (storeAt s before id).Forest :=
  Expressions.keepsForest_removeParens (Edit.keepsForest_sweep h fun _ _ hs =>
    keepsForest_reduceNode hs)

theorem sound_storeAt {s : Store} (h : s.Sound) (before : List NodeId) (id : NodeId) :
    (storeAt s before id).Sound := by
  have hbefore : s.Evolves ((sweep reduceNode before).run s).2 :=
    Edit.keeps_sweep h fun _ _ _ hs => keeps_reduceNode hs.sound
  have hparens : Edit.Keeps (Expressions.removeParens id) ((sweep reduceNode before).run s).2 :=
    Expressions.keeps_removeParens hbefore.sound
  exact hparens.sound

end Blocks

/-- The parts of an `if` have different roles. -/
theorem Store.Sound.hasDistinctRoles_view {s : Store} {id : NodeId} (h : s.Sound)
    (hforest : s.Forest) (hkind : s.kind id = .ifElse) : (s.view id).hasDistinctRoles := by
  rw [Tree.hasDistinctRoles, hforest.children_view, List.pairwise_map]
  refine ((h.formed id).roles (by rw [hkind]; rfl)).imp fun hne => ?_
  rwa [head_view, head_view]

/-- Whatever passes have run on a script, and whatever a round of the reduction of blocks has been
over: when an `if` in the tree is reduced, other statements take its place, and they run like the
`if`, whatever is observed, unless two assignments are merged. -/
theorem run_reduceIf [LawfulMonad m] (M : Meaning m) {source : String} {line : Nat} {t : Tree}
    (hparse : parseScript source line = .ok t) (transforms : List Transform)
    (before : List NodeId) (id : NodeId) :
    let s := Blocks.storeAt (transforms.foldl Transform.run (.ofTree t)) before id
    let s' := ((Conditions.reduceIf id).run s).2
    s.kind id = .ifElse → s.Within id s.root → ((Conditions.reduceIf id).run s).1 = true →
    ∃ news, (s.view id).Rewrites news (s.view s.root) (s'.view s'.root) ∧
      (M.runList news = M.run (s.view id) ∨
        ∃ new, news = [new] ∧ Conditions.MergesAssignments M (s.view id) new) := by
  intro s s' hkind hwithin hchanged
  have hforest : s.Forest := Blocks.forest_storeAt
    (Transform.forest_foldl_run (Store.forest_ofTree t) transforms) before id
  have hsound : s.Sound := Blocks.sound_storeAt (sound_of_parseScript hparse transforms) before id
  have hroot : id ≠ s.root := hsound.ne_root_of_kind (by simp [hkind])
  obtain ⟨parent, hlink, -⟩ := hwithin.cases.resolve_left hroot
  obtain ⟨news, hputs, hreduces⟩ := Conditions.merges_reduceIf hforest hlink hkind hchanged
  refine ⟨news.map s'.view, ?_,
    Conditions.run_of_reduces hreduces (hsound.hasDistinctRoles_view hforest hkind)⟩
  have hroot' : s'.root = s.root := hputs.root_eq
  rw [hroot']
  exact hputs.rewrites hforest hwithin hroot

def treeOf (source : String) : Tree := (parseScript source 1).toOption.getD default

theorem parseScript_treeOf {source : String} (h : (parseScript source 1).toOption.isSome) :
    parseScript source 1 = .ok (treeOf source) := by
  rw [treeOf]
  cases hparse : parseScript source 1 with
  | error fault =>
      rw [hparse] at h
      cases h
  | ok t => rfl

/-- Two calls that depend on a condition. -/
def branchedCalls : String := "if(a)f();else g();"

theorem run_reduceIf_branchedCalls : ∃ t, parseScript branchedCalls 1 = .ok t ∧
    let s := Blocks.storeAt (.ofTree t) [2, 5, 6, 4, 3, 9, 10, 8, 7] 1
    let s' := ((Conditions.reduceIf 1).run s).2
    s.kind 1 = .ifElse ∧ s.Within 1 s.root ∧ ((Conditions.reduceIf 1).run s).1 = true ∧
    ∃ news, (s.view 1).Rewrites news (s.view s.root) (s'.view s'.root) ∧
      (tracing.runList news = tracing.run (s.view 1) ∨
        ∃ new, news = [new] ∧ Conditions.MergesAssignments tracing (s.view 1) new) := by
  -- The script is parsed once for all that is looked up.
  have hlookup : (parseScript branchedCalls 1).toOption.isSome ∧
      let s := Blocks.storeAt (.ofTree (treeOf branchedCalls)) [2, 5, 6, 4, 3, 9, 10, 8, 7] 1
      s.kind 1 = .ifElse ∧ s.parent? 1 = some s.root ∧
        ((Conditions.reduceIf 1).run s).1 = true := by
    decide +kernel
  obtain ⟨hsome, hkind, hparent, hchanged⟩ := hlookup
  have hparse := parseScript_treeOf hsome
  refine ⟨_, hparse, ?_⟩
  intro s s'
  have hwithin : s.Within 1 s.root := Store.within_of_parent hparent
  exact ⟨hkind, hwithin, hchanged, run_reduceIf tracing hparse [] _ 1 hkind hwithin hchanged⟩

/-- Two compound assignments to a name that depend on a call. -/
def countedCalls : String := "if(f())x+=1;else x+=2;"

/-- Where assignments are merged, the old value is read before the condition is evaluated instead of
behind it. -/
theorem reduceIf_countedCalls : ∃ t, parseScript countedCalls 1 = .ok t ∧
    let s := Blocks.storeAt (.ofTree t) [3, 4, 2, 7, 8, 6, 5, 11, 12, 10, 9] 1
    let s' := ((Conditions.reduceIf 1).run s).2
    s.kind 1 = .ifElse ∧ s.Within 1 s.root ∧ ((Conditions.reduceIf 1).run s).1 = true ∧
    ∃ news, (s.view 1).Rewrites news (s.view s.root) (s'.view s'.root) ∧
      Tracing.events (tracing.run (s.view 1)) = [.read "f", .call, .read "x", .write] ∧
      Tracing.events (tracing.runList news) = [.read "x", .read "f", .call, .write] := by
  have hlookup : (parseScript countedCalls 1).toOption.isSome ∧
      let s := Blocks.storeAt (.ofTree (treeOf countedCalls)) [3, 4, 2, 7, 8, 6, 5, 11, 12, 10, 9] 1
      let s' := ((Conditions.reduceIf 1).run s).2
      s.kind 1 = .ifElse ∧ s.parent? 1 = some s.root ∧ ((Conditions.reduceIf 1).run s).1 = true ∧
        s.children s.root = [1] ∧ s'.children s'.root = [15] ∧ s'.head s'.root = s.head s.root ∧
        Tracing.events (Tracing.behaviour (s.view 1)).run = [.read "f", .call, .read "x", .write] ∧
        Tracing.events (Tracing.behaviour (s'.view 15)).run = [.read "x", .read "f", .call, .write] := by
    decide +kernel
  obtain ⟨hsome, hkind, hparent, hchanged, hrow, hrow', hhead, hbefore, hbehind⟩ := hlookup
  refine ⟨treeOf countedCalls, parseScript_treeOf hsome, ?_⟩
  intro s s'
  have hs : s.Forest := Blocks.forest_storeAt (Store.forest_ofTree _) _ _
  have hs' : s'.Forest := Conditions.keepsForest_reduceIf hs
  have hrewrites : (s.view 1).Rewrites [s'.view 15] (s.view s.root) (s'.view s'.root) := by
    rw [hs.view_eq_node s.root, hs'.view_eq_node s'.root, show s.children s.root = [1] from hrow,
      show s'.children s'.root = [15] from hrow', show s'.head s'.root = s.head s.root from hhead]
    exact @Tree.Rewrites.here _ _ _ [] []
  refine ⟨hkind, Store.within_of_parent hparent, hchanged, [s'.view 15], hrewrites, ?_, ?_⟩
  · rw [tracing_run]
    exact hbefore
  · rw [Meaning.runList_singleton, tracing_run]
    exact hbehind

end ScriptMin
