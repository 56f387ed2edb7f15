import ScriptMin.Proofs.Pass.DeclarationForests
import ScriptMin.Proofs.Pass.DeclarationSoundness
import ScriptMin.Proofs.Pass.DeclarationJumps
import ScriptMin.Proofs.Pass.Thinning
import ScriptMin.Proofs.Store.Preparing

/-!
What one removal does. A parameter, a declaration, an empty list or a function is taken away, a
function gives way to an empty statement, and a declaration gives way to its initializer as a
statement of its own.
-/

namespace ScriptMin

open Store Edit

namespace Store

variable {s s' : Store} {id p r x y c d f l w G : NodeId} {role : Option Role} {name : String}

/-! ### Links after an edit -/

theorem Linked.children_remove (h : s.Linked) :
    (s.remove r).children y = (s.children y).filter (· ≠ r) := by
  rw [Store.remove, Store.setRole, children_modifyHead, children_detach]
  split
  · rfl
  case isFalse hparent =>
      refine (List.filter_eq_self.mpr fun c hc => decide_eq_true ?_).symm
      rintro rfl
      exact hparent (h.parent?_of_mem hc)

theorem parent?_remove : (s.remove r).parent? c = if c = r then none else s.parent? c := by
  rw [remove, parent?_setRole, parent?_detach]

@[simp] theorem bare_setRole : ((s.setRole id role).head c).bare = (s.head c).bare := by
  rw [setRole, head_modifyHead]
  split <;> rfl

@[simp] theorem kind_setRole : (s.setRole id role).kind c = s.kind c :=
  Head.kind_of_bare bare_setRole

@[simp] theorem bare_setParenthesized {on : Bool} :
    ((s.setParenthesized id on).head c).bare = (s.head c).bare := by
  rw [setParenthesized, head_modifyHead]
  split <;> rfl

@[simp] theorem role?_setParenthesized {on : Bool} :
    (s.setParenthesized id on).role? c = s.role? c := by
  rw [role?, setParenthesized, head_modifyHead]
  split <;> rfl

@[simp] theorem bare_remove : ((s.remove r).head c).bare = (s.head c).bare := by
  rw [remove, bare_setRole, head_detach]

@[simp] theorem flags_setRole : (s.setRole id role).flags c = s.flags c := by
  rw [flags, setRole, head_modifyHead]
  split <;> rfl

@[simp] theorem flags_remove : (s.remove r).flags c = s.flags c := by
  rw [remove, flags_setRole, flags, head_detach]
  rfl

theorem role?_remove (hne : c ≠ r) : (s.remove r).role? c = s.role? c := by
  rw [remove, role?_setRole_of_ne hne, role?_detach]

@[simp] theorem scope?_setRole : (s.setRole id role).scope? c = s.scope? c := scope?_modifyHead _

@[simp] theorem scope?_remove : (s.remove r).scope? c = s.scope? c := by
  rw [remove, scope?_setRole, scope?_detach]

@[simp] theorem size_remove : (s.remove r).size = s.size := by
  rw [remove, setRole, size_modifyHead, size_detach]

theorem Ordered.remove (h : s.Ordered) : (s.remove r).Ordered := by
  obtain ⟨C, hC⟩ := h.arranged
  exact ⟨h.toForest.remove, hC.remove.rearranged.arranged⟩

/-! ### One node is taken away -/

theorem filter_ne_append {before behind : List NodeId}
    (hnodup : (before ++ r :: behind).Nodup) :
    (before ++ r :: behind).filter (· ≠ r) = before ++ behind := by
  have hkeep : ∀ {ids : List NodeId}, r ∉ ids → ids.filter (· ≠ r) = ids := fun hnot =>
    List.filter_eq_self.mpr fun c hc => decide_eq_true fun heq => hnot (heq ▸ hc)
  rw [List.nodup_append, List.nodup_cons] at hnodup
  rw [List.filter_append, List.filter_cons_of_neg (by simp), hkeep hnodup.2.1.1, hkeep]
  exact fun hmem => hnodup.2.2 r hmem r List.mem_cons_self rfl

/-- The parent of a statement or declaration is no operation. -/
theorem Ordered.not_isOperation (h : s.Ordered) (hlink : s.parent? c = some p)
    (hc : (s.head c).isExpression = false) : (s.kind p).isOperation = false := by
  by_contra hoperation
  rw [Bool.not_eq_false] at hoperation
  rw [(h.admits hlink).operand hoperation] at hc
  cases hc

theorem Sound.not_isKey_of_parent (h : s.Sound) (hlink : s.parent? c = some p)
    (hkind : s.kind p ≠ .propertyInit) : ¬ s.IsKey c :=
  (h.portable_of_mem ((h.linked p c).mpr hlink) hkind).not_key

/-- A node that can be taken out is taken away with all that is in its body below it. -/
theorem removal_remove (h : s.Sound) (hs : s.Ordered) (hlink : s.parent? r = some p)
    (hdrop : s.Droppable r) (hkey : ¬ s.IsKey r)
    (hgone : ∀ c ∈ s.inner r, s.Droppable c ∨ s.Effectless c)
    (hinitializer : ∀ x, s.hasEffect x → s.parent? x ≠ some r)
    (hfunction : s.kind p ≠ .function) (hframe : (s.kind p).isOperation → s.InFrame p)
    (howner : s.Owner G) (hidle : s.Idle G name) (hplace : p = G ∨ s.Inside G p) :
    Removal s (s.remove r) p (fun _ => False) (· = r) (· ∈ s.inner r) where
  evolves := evolves_remove h hkey
  ordered := hs.remove
  scope_eq _ := scope?_remove
  added id hid := .inr (by rwa [size_remove])
  head _ _ := bare_remove
  row y _ hy _ := by
    rw [h.toLinked.children_remove]
    refine List.filter_eq_self.mpr fun c hc => decide_eq_true ?_
    rintro rfl
    exact hy (Option.some_inj.mp ((h.parent?_of_mem hc).symm.trans hlink))
  below _ _ hT := hT.elim
  kind_below _ hT := hT.elim
  not_function := hfunction
  inFrame := hframe
  owner := ⟨G, howner, ⟨name, hidle⟩, fun y hy => (hy.resolve_right id) ▸ hplace⟩
  kept c q hq hne := by
    rw [parent?_remove, if_neg hne]
    exact ⟨hq, role?_remove hne⟩
  back c q _ _ hq := by
    rw [parent?_remove] at hq
    split at hq
    · cases hq
    · exact ⟨hq, ‹_›⟩
  origin c q _ hlt hq := by
    rw [parent?_remove] at hq
    split at hq
    · cases hq
    · exact absurd (h.parent_lt hq) (Nat.not_lt_of_le hlt)
  cut_of c hc := .inl (hc ▸ hdrop)
  effect x d hx _ hd hcut := hinitializer x hx (hcut ▸ hd)
  gone_of := hgone
  gone_up c q hc hq := by
    rw [parent?_remove] at hq
    split at hq
    · cases hq
    case isFalse hne =>
        obtain ⟨hkind, hinside⟩ := (hs.toForest.mem_inner.mp hc).resolve_left hne
        obtain ⟨q', hq', hcase⟩ := hinside.parent h.toLinked
        obtain rfl := Option.some_inj.mp (hq.symm.trans hq')
        rcases hcase with rfl | ⟨hkind', hinside'⟩
        · exact ⟨hs.toForest.mem_inner.mpr (.inl rfl), hkind⟩
        · exact ⟨hs.toForest.mem_inner.mpr (.inr ⟨hkind, hinside'⟩), hkind'⟩
  place K hK := by
    obtain ⟨before, behind, hsplit⟩ := List.append_of_mem ((h.linked p r).mpr hlink)
    have hnodup := hsplit ▸ h.nodup p
    refine filter_bodyNodes_place [] hsplit ?_ ?_ ?_
    · rw [h.toLinked.children_remove, hsplit, filter_ne_append hnodup, List.append_nil]
    · intro c hc
      have hmem : c ∈ s.children p := by
        rw [hsplit]
        exact (List.mem_append.mp hc).elim (List.mem_append_left _)
          fun hc => List.mem_append_right _ (List.mem_cons_of_mem _ hc)
      refine hs.toForest.inner_congr hs.remove.toForest
        (fun x _ => Head.kind_of_bare bare_remove) fun x hx => ?_
      rw [h.toLinked.children_remove]
      refine List.filter_eq_self.mpr fun c' hc' => decide_eq_true ?_
      rintro rfl
      obtain rfl := Option.some_inj.mp ((h.parent?_of_mem hc').symm.trans hlink)
      exact hs.toForest.ne_of_within hmem hx rfl
    · rw [List.flatMap_nil, List.filter_nil]
      exact (List.filter_eq_nil_iff.mpr fun c hc hKc => (hK c hKc).2.1 hc).symm

/-! ### What is gone with a node -/

theorem inner_of_children_eq_nil (hs : s.Forest) (hnil : s.children r = []) : s.inner r = [r] := by
  rw [hs.inner_eq, bodyNodes_eq, hnil]
  split <;> rfl

/-- Nothing inside a function is in the body around it. -/
theorem inner_function (hs : s.Forest) (hkind : s.kind f = .function) : s.inner f = [f] := by
  rw [hs.inner_eq, if_pos hkind]

theorem isEffectFree_view (hs : s.Forest) (x : NodeId) : (s.view x).isEffectFree =
    match s.kind x with
    | .number | .string | .regExp | .trueLit | .falseLit | .nullLit | .thisRef | .identifier
    | .function | .hole => true
    | .arrayInit => Tree.areEffectFree ((s.children x).map s.view)
    | _ => false := by
  rw [hs.view_eq_node, Tree.isEffectFree]
  rfl

theorem areEffectFree_iff {ts : List Tree} : Tree.areEffectFree ts ↔ ∀ t ∈ ts, t.isEffectFree := by
  induction ts with
  | nil => simp [Tree.areEffectFree]
  | cons t rest ih => rw [Tree.areEffectFree, Bool.and_eq_true, ih, List.forall_mem_cons]

/-- A value without effect has values without effect in it, or nothing. -/
theorem isEffectFree_of_mem (hs : s.Forest) (h : s.Sound) (hfree : (s.view x).isEffectFree)
    (hfunction : s.kind x ≠ .function) (hc : c ∈ s.children x) :
    s.kind x = .arrayInit ∧ (s.view c).isEffectFree := by
  have hkind : s.kind x = .arrayInit := by
    obtain ⟨i, -, hhosts⟩ := h.hosts hc
    rw [isEffectFree_view hs] at hfree
    rw [Head.Hosts, show (s.head x).kind = s.kind x from rfl] at hhosts
    revert hfree hhosts hfunction
    cases s.kind x <;> simp
  rw [isEffectFree_view hs, hkind] at hfree
  exact ⟨hkind, areEffectFree_iff.mp hfree _ (List.mem_map_of_mem hc)⟩

/-- All nodes of a value without effect are values without effect. -/
theorem effectless_of_mem_inner (h : s.Sound) (hs : s.Ordered) (hx : s.Effectless x)
    (hc : c ∈ s.inner x) : s.Effectless c := by
  induction x using hs.toForest.descend with
  | step x ih =>
      rw [hs.toForest.inner_eq, List.mem_cons] at hc
      rcases hc with rfl | hc
      · exact hx
      split at hc
      case isTrue => cases hc
      case isFalse hfunction =>
          rw [bodyNodes_eq, List.mem_flatMap] at hc
          obtain ⟨e, he, hc⟩ := hc
          have hlink := h.parent?_of_mem he
          obtain ⟨hkind, hfree⟩ := isEffectFree_of_mem hs.toForest h hx.effectFree hfunction he
          refine ih e he ⟨hfree, ?_, ?_⟩ hc
          · refine (hs.admits hlink).operand ?_
            rw [show (s.head x).kind = .arrayInit from hkind]
            rfl
          · rw [parentKind?_of_parent hlink, hkind]
            exact .inr rfl

theorem Inside.parent_of (hs : s.Linked) (h : s.Inside G r) (hlink : s.parent? r = some p) :
    p = G ∨ s.Inside G p := by
  obtain ⟨q, hq, hcase⟩ := h.parent hs
  obtain rfl := Option.some_inj.mp (hlink.symm.trans hq)
  exact hcase.imp_right And.right

/-- What a declaration without a pattern starts with is all there is below it. -/
theorem children_of_plain (h : s.Sound) (hkind : s.kind d = .declaration)
    (hplain : s.child? d .names = none) : s.children d = (s.child? d .initializer).toList := by
  have hrole : ∀ c ∈ s.children d, s.child? d .initializer = some c := by
    intro c hc
    have hroles : (s.kind d).hasRoles := by
      rw [hkind]
      rfl
    rcases h.hosts_declaration hkind hc with ⟨hnames, -⟩ | hinitializer
    · rw [h.child?_of_mem hroles hc hnames] at hplain
      cases hplain
    · exact h.child?_of_mem hroles hc hinitializer
  cases hchildren : s.children d with
  | nil =>
      cases hchild : s.child? d .initializer with
      | none => rfl
      | some x =>
          have hmem := mem_of_child? hchild
          rw [hchildren] at hmem
          cases hmem
  | cons c rest =>
      have hnodup := h.nodup d
      rw [hchildren] at hrole hnodup
      rw [hrole c List.mem_cons_self]
      cases rest with
      | nil => rfl
      | cons c' rest =>
          have heq := (hrole c List.mem_cons_self).symm.trans
            (hrole c' (List.mem_cons_of_mem _ List.mem_cons_self))
          rw [Option.some_inj.mp heq] at hnodup
          exact absurd List.mem_cons_self (List.nodup_cons.mp hnodup).1

/-! ### Removals -/

section

variable (h : s.Sound) (hs : s.Ordered)

include h hs

/-- An unused parameter is taken away. -/
theorem removal_parameter {params : NodeId} (hG : s.kind G = .function)
    (hchild : s.child? G .params = some params) (hmem : c ∈ s.children params)
    (hkind : s.kind c = .identifier) (hidle : s.Idle G (s.text c)) :
    Removal s (s.remove c) params (fun _ => False) (· = c) (· ∈ s.inner c) := by
  have hlink := h.parent?_of_mem hmem
  have hlist := h.kind_params hG hchild
  have hnil : s.children c = [] := h.children_of_key (by rw [hkind]; rfl)
  have hdrop : s.Droppable c := .parameter hG hchild hmem hkind hidle
  refine removal_remove h hs hlink hdrop ?_ ?_ ?_ (by simp [hlist]) ?_ (.inr hG) hidle ?_
  · exact h.not_isKey_of_parent hlink (by simp [hlist])
  · intro e he
    rw [inner_of_children_eq_nil hs.toForest hnil, List.mem_singleton] at he
    exact .inl (he ▸ hdrop)
  · intro x _ hx
    have hmem := (h.linked c x).mpr hx
    rw [hnil] at hmem
    cases hmem
  · exact fun _ => ⟨G, h.parent?_of_mem (mem_of_child? hchild), hG⟩
  · exact .inr (.child (mem_of_child? hchild))

/-- An unused declaration without an effect is taken away. -/
theorem removal_declaration (howner : s.Owner G) (hinside : s.Inside G d)
    (hkind : s.kind d = .declaration) (hlink : s.parent? d = some l) (hlist : s.kind l = .varList)
    (hplain : s.child? d .names = none) (hidle : s.Idle G (s.text d))
    (hfree : ∀ x, s.child? d .initializer = some x → (s.view x).isEffectFree) :
    Removal s (s.remove d) l (fun _ => False) (· = d) (· ∈ s.inner d) := by
  have hparent : s.parentKind? d = some .varList := by rw [parentKind?_of_parent hlink, hlist]
  have hdrop : s.Droppable d := .declaration howner hinside hkind hparent hplain hidle
  have hchild : ∀ x ∈ s.children d, s.child? d .initializer = some x := by
    intro x hx
    rw [children_of_plain h hkind hplain] at hx
    exact Option.mem_toList.mp hx
  refine removal_remove h hs hlink hdrop ?_ ?_ ?_ (by simp [hlist]) ?_ howner hidle
    (hinside.parent_of h.toLinked hlink)
  · exact h.not_isKey_of_parent hlink (by simp [hlist])
  · intro e he
    rw [hs.toForest.inner_eq, if_neg (by simp [hkind]), List.mem_cons, bodyNodes_eq,
      List.mem_flatMap] at he
    rcases he with rfl | ⟨x, hx, he⟩
    · exact .inl hdrop
    · have hlinkx := h.parent?_of_mem hx
      refine .inr (effectless_of_mem_inner h hs ⟨hfree x (hchild x hx), ?_, ?_⟩ he)
      · exact (hs.admits hlinkx).role .initializer (role?_of_child? (hchild x hx)) rfl
      · rw [parentKind?_of_parent hlinkx, hkind]
        exact .inl rfl
  · intro x hx hlinkx
    have heffect := (hasEffect_iff.mp hx).2.2.2
    rw [hfree x (hchild x ((h.linked d x).mpr hlinkx))] at heffect
    cases heffect
  · intro hoperation
    rw [hlist] at hoperation
    cases hoperation

/-- A list that is left empty is taken away. -/
theorem removal_list (howner : s.Owner G) (hinside : s.Inside G l) (hlist : s.kind l = .varList)
    (hlink : s.parent? l = some p) (hstatements : (s.kind p).isStatementList)
    (hidle : s.Idle G name) (hnil : s.children l = []) :
    Removal s (s.remove l) p (fun _ => False) (· = l) (· ∈ s.inner l) := by
  have hdrop : s.Droppable l := .list hlist
  have hnot : ∀ {kind : Kind}, s.kind p = kind → kind.isStatementList := fun hkind =>
    hkind ▸ hstatements
  refine removal_remove h hs hlink hdrop ?_ ?_ ?_ ?_ ?_ howner hidle
    (hinside.parent_of h.toLinked hlink)
  · exact h.not_isKey_of_parent hlink fun hkind => by cases hnot hkind
  · intro e he
    rw [inner_of_children_eq_nil hs.toForest hnil, List.mem_singleton] at he
    exact .inl (he ▸ hdrop)
  · intro x _ hx
    have hmem := (h.linked l x).mpr hx
    rw [hnil] at hmem
    cases hmem
  · exact fun hkind => by cases hnot hkind
  · intro hoperation
    cases hkind : s.kind p <;> simp_all [Kind.isStatementList, Kind.isOperation, Kind.isStatement]

/-- What is known of an unused function that can be taken out. -/
theorem function_parent (hkind : s.kind f = .function)
    (hdeclared : Tree.isDeclaredFunction (s.head f)) (hlink : s.parent? f = some p) :
    s.kind p ≠ .function ∧ (s.kind p).isOperation = false := by
  refine ⟨fun hfunction => ?_, hs.not_isOperation hlink ?_⟩
  · rcases h.hosts_function hfunction ((h.linked p f).mpr hlink) with ⟨-, hbad⟩ | ⟨-, hbad⟩ <;>
      simp [hkind] at hbad
  · rw [Head.isExpression, show (s.head f).kind = .function from hkind]
    rw [Tree.isDeclaredFunction, Bool.or_eq_true, beq_iff_eq, beq_iff_eq] at hdeclared
    rcases hdeclared with hform | hform <;> simp [hform, Kind.isStatement]

/-- An unused function is taken away from among statements. -/
theorem removal_function (hG : s.kind G = .function) (hinside : s.Inside G f)
    (hkind : s.kind f = .function) (hdeclared : Tree.isDeclaredFunction (s.head f))
    (hlink : s.parent? f = some p) (hidle : s.Idle G (s.text f)) :
    Removal s (s.remove f) p (fun _ => False) (· = f) (· ∈ s.inner f) := by
  have hdrop : s.Droppable f := .function hG hinside hkind hdeclared hidle
  obtain ⟨hfunction, hoperation⟩ := function_parent h hs hkind hdeclared hlink
  refine removal_remove h hs hlink hdrop ?_ ?_ ?_ hfunction (by simp [hoperation]) (.inr hG) hidle
    (hinside.parent_of h.toLinked hlink)
  · exact (h.portable_of_kind (by rw [hkind]; rfl)).not_key
  · intro e he
    rw [inner_function hs.toForest hkind, List.mem_singleton] at he
    exact .inl (he ▸ hdrop)
  · intro x hx hlinkx
    have hparent := (hasEffect_iff.mp hx).2.1
    rw [parentKind?_of_parent hlinkx, hkind] at hparent
    cases hparent

end

/-! ### An expression becomes a statement -/

/-- An expression has become the only child of a new statement. -/
structure Demoted (s s' : Store) (x : NodeId) : Prop where
  size_eq : s'.size = s.size + 1
  root_eq : s'.root = s.root
  scope_eq : ∀ id, s'.scope? id = s.scope? id
  kind_new : s'.kind s.size = .semicolon
  head : ∀ id < s.size, (s'.head id).bare = (s.head id).bare
  role : ∀ id < s.size, id ≠ x → s'.role? id = s.role? id
  role_self : s'.role? x = some .expression
  parent : ∀ id, s'.parent? id = if id = x then some s.size else s.parent? id
  children : ∀ id, s'.children id = if id = s.size then [x] else (s.children id).filter (· ≠ x)

/-- A store has one new node, which is not attached. -/
structure Added (s s' : Store) (head : Head) : Prop where
  linked : s'.Linked
  size_eq : s'.size = s.size + 1
  root_eq : s'.root = s.root
  scope_eq : ∀ id, s'.scope? id = s.scope? id
  head_eq : ∀ id, s'.head id = if id = s.size then head else s.head id
  parent_eq : ∀ id, s'.parent? id = s.parent? id
  children_eq : ∀ id, s'.children id = s.children id

theorem added_of_add (h : s.Linked) {head : Head} (hadd : s.add head = (w, s')) :
    w = s.size ∧ Added s s' head := by
  obtain ⟨rfl, rfl⟩ := Prod.mk.inj hadd
  exact ⟨rfl, h.add head, size_add head, rfl, fun _ => scope?_add head, fun _ => head_add head,
    fun _ => parent?_add head, fun _ => children_add head⟩

theorem Added.head_of_lt {head : Head} (h : Added s s' head) (hid : id < s.size) :
    s'.head id = s.head id := by
  rw [h.head_eq, if_neg (Nat.ne_of_lt hid)]

theorem demoted_wrapExpression (h : s.Linked) (hx : x < s.size)
    (hwrap : s.wrapExpression x = (w, s')) : w = s.size ∧ Demoted s s' x := by
  rcases hadd : s.add { kind := .semicolon, span := s.span x } with ⟨statement, s₁⟩
  obtain ⟨rfl, h₁⟩ := added_of_add h hadd
  rw [wrapExpression, hadd] at hwrap
  obtain ⟨rfl, rfl⟩ := Prod.mk.inj hwrap
  have hx₁ : x < s₁.size := h₁.size_eq ▸ Nat.lt_succ_of_lt hx
  have hw : s.size < s₁.size := h₁.size_eq ▸ Nat.lt_succ_self _
  have hnew : s₁.children s.size = [] := by rw [h₁.children_eq, children_of_size_le (Nat.le_refl _)]
  have hself : s₁.head s.size = { kind := .semicolon, span := s.span x } := by
    rw [h₁.head_eq, if_pos rfl]
  refine ⟨rfl, ⟨?_, ?_, fun id => ?_, ?_, fun id hid => ?_, fun id hid hne => ?_, ?_, fun id => ?_,
    fun id => ?_⟩⟩
  · rw [appendAs, setRole, size_modifyHead, append_eq, size_attach, h₁.size_eq]
  · rw [← h₁.root_eq, root, appendAs, chosenRoot_setRole, append_eq, chosenRoot_attach, root]
  · rw [appendAs, scope?_setRole, append_eq, scope?_attach, h₁.scope_eq]
  · rw [appendAs, kind_setRole, append_eq, kind, head_attach, hself]
  · rw [appendAs, bare_setRole, append_eq, head_attach, h₁.head_of_lt hid]
  · rw [appendAs, role?_setRole_of_ne hne, append_eq, role?, head_attach, h₁.head_of_lt hid]
    rfl
  · rw [appendAs, role?_setRole (by rwa [append_eq, size_attach])]
  · rw [appendAs, parent?_setRole, append_eq, parent?_attach hx₁, h₁.parent_eq]
  · have hdetach : (s₁.detach x).children id = (s₁.children id).filter (· ≠ x) := by
      have hremove := h₁.linked.children_remove (r := x) (y := id)
      rwa [remove, setRole, children_modifyHead] at hremove
    rw [appendAs, setRole, children_modifyHead, append_eq, children_attach hw, hdetach]
    split
    case isTrue heq =>
        subst heq
        rw [hnew]
        rfl
    case isFalse => rw [h₁.children_eq]

theorem Demoted.setParenthesized (h : Demoted s s' x) : Demoted s (s'.setParenthesized id true) x where
  size_eq := (size_modifyHead _).trans h.size_eq
  root_eq := h.root_eq
  scope_eq c := (scope?_modifyHead _).trans (h.scope_eq c)
  kind_new := (Head.kind_of_bare bare_setParenthesized).trans h.kind_new
  head c hc := bare_setParenthesized.trans (h.head c hc)
  role c hc hne := role?_setParenthesized.trans (h.role c hc hne)
  role_self := role?_setParenthesized.trans h.role_self
  parent c := (parent?_modifyHead _).trans (h.parent c)
  children c := (children_modifyHead _).trans (h.children c)

theorem Demoted.parent?_new (h : Demoted s s' x) (hx : x < s.size) : s'.parent? s.size = none := by
  rw [h.parent, if_neg (Nat.ne_of_gt hx), parent?_of_size_le (Nat.le_refl _)]

end Store

theorem Unused.demoted_demote {s : Store} {x : NodeId} (h : s.Linked) (hx : x < s.size) :
    Edit.Gives (demote x) s fun w s' => w = s.size ∧ Demoted s s' x := by
  rw [demote, gives_bind, gives_get]
  rcases hwrap : s.wrapExpression x with ⟨w, s₁⟩
  obtain ⟨rfl, hs⟩ := demoted_wrapExpression h hx hwrap
  dsimp only
  split
  · rw [gives_bind, gives_set, gives_pure]
    exact ⟨rfl, hs.setParenthesized⟩
  · rw [gives_bind, gives_set, gives_pure]
    exact ⟨rfl, hs⟩

namespace Store

variable {s s' : Store} {p x d l w G lost old new anchor child y : NodeId} {name : String}
  {before behind : List NodeId}

/-! ### A statement takes a place -/

theorem detach_of_none (hnone : s.parent? child = none) : s.detach child = s := by
  rw [detach_eq, hnone]

theorem children_replace (h : s.Linked) (hlink : s.parent? old = some p)
    (hnew : s.parent? new = none) (hne : old ≠ new) : (s.replace old new).children y =
      if y = p then (s.children y).map fun c => if c = old then new else c else s.children y := by
  have hlink' : (s.setRole new (s.role? old)).parent? old = some p := by rw [parent?_setRole, hlink]
  have hrow : ∀ {id}, (s.setRole new (s.role? old)).children id = s.children id :=
    fun {_} => children_modifyHead _
  rw [replace_eq hne]
  simp only [detach_of_none hnew, hlink']
  rw [children_swap, hrow]
  · rw [setRole, size_modifyHead]
    exact h.parent_lt hlink
  · rw [hrow]
    exact h.nodup p

theorem bare_replace {id : NodeId} : ((s.replace old new).head id).bare = (s.head id).bare := by
  by_cases hne : old = new
  · rw [replace, if_pos hne]
  have hdetach : ∀ role, (((s.detach new).setRole new role).head id).bare = (s.head id).bare := by
    intro role
    rw [bare_setRole, head_detach]
  rw [replace_eq hne]
  dsimp only
  split
  · rw [head_swap, hdetach]
  · split
    · exact hdetach _
    · exact hdetach _

theorem flags_replace {id : NodeId} : (s.replace old new).flags id = s.flags id := by
  by_cases hne : old = new
  · rw [replace, if_pos hne]
  have hdetach : ∀ role, ((s.detach new).setRole new role).flags id = s.flags id := by
    intro role
    rw [flags_setRole, flags, head_detach]
    rfl
  rw [replace_eq hne]
  dsimp only
  split
  · rw [flags, head_swap]
    exact hdetach _
  · split
    · exact hdetach _
    · exact hdetach _

theorem role?_replace {id : NodeId} (hid : id ≠ new) : (s.replace old new).role? id = s.role? id := by
  by_cases hne : old = new
  · rw [replace, if_pos hne]
  have hdetach : ∀ role, ((s.detach new).setRole new role).role? id = s.role? id := by
    intro role
    rw [role?_setRole_of_ne hid, role?_detach]
  rw [replace_eq hne]
  dsimp only
  split
  · rw [role?, head_swap]
    exact hdetach _
  · split
    · exact hdetach _
    · exact hdetach _

theorem scope?_replace {id : NodeId} : (s.replace old new).scope? id = s.scope? id := by
  by_cases hne : old = new
  · rw [replace, if_pos hne]
  have hdetach : ∀ role, ((s.detach new).setRole new role).scope? id = s.scope? id := by
    intro role
    rw [scope?_setRole, scope?_detach]
  rw [replace_eq hne]
  dsimp only
  split
  · rw [scope?_swap, hdetach]
  · split
    · exact hdetach _
    · exact hdetach _

theorem map_swap (hnodup : (before ++ old :: behind).Nodup) :
    (before ++ old :: behind).map (fun c => if c = old then new else c) = before ++ new :: behind := by
  have hkeep : ∀ {ids : List NodeId}, old ∉ ids →
      ids.map (fun c => if c = old then new else c) = ids := by
    intro ids hnot
    refine (List.map_congr_left fun c hc => if_neg ?_).trans (List.map_id' ids)
    rintro rfl
    exact hnot hc
  rw [List.nodup_append, List.nodup_cons] at hnodup
  rw [List.map_append, List.map_cons, if_pos rfl, hkeep hnodup.2.1.1, hkeep]
  exact fun hmem => hnodup.2.2 old hmem old List.mem_cons_self rfl

theorem insertIdx_length (before behind : List NodeId) (child : NodeId) :
    (before ++ behind).insertIdx before.length child = before ++ child :: behind := by
  induction before with
  | nil => rfl
  | cons first rest ih => exact congrArg (first :: ·) ih

/-- Where a detached node is put before another one. -/
theorem insertBefore_eq (h : s.Linked) (hlink : s.parent? anchor = some p)
    (hsplit : s.children p = before ++ anchor :: behind) :
    s.insertBefore anchor child = s.insert p before.length child := by
  rw [insertBefore, hlink, h.indexOf?_eq hlink hsplit]

theorem insertAfter_eq (h : s.Linked) (hlink : s.parent? anchor = some p)
    (hsplit : s.children p = before ++ anchor :: behind) :
    s.insertAfter anchor child = s.insert p (before.length + 1) child := by
  rw [insertAfter, hlink, h.indexOf?_eq hlink hsplit]

theorem children_insert (hlt : p < s.size) (hnone : s.parent? child = none) {index : Nat}
    (hindex : index ≤ (s.children p).length) : (s.insert p index child).children y =
      if y = p then (s.children y).insertIdx index child else s.children y := by
  rw [insert_eq, children_attach hlt, detach_of_none hnone]
  split
  case isTrue heq => rw [heq, min_eq_left hindex]
  case isFalse => rfl

/-! ### A declaration gives way to its initializer -/

/-- How the statement stands where the list was, or beside it. -/
inductive Beside (s s' : Store) (d l : NodeId) : NodeId → List NodeId → Prop where
  | instead (sole : s.children l = [d]) : Beside s s' d l l [s.size]
  | before {rest : List NodeId} (first : s.children l = d :: rest)
      (others : s'.children l = rest) : Beside s s' d l d [s.size, l]
  | behind {rest : List NodeId} (last : s.children l = rest ++ [d])
      (others : s'.children l = rest) : Beside s s' d l d [l, s.size]

/-- A declaration of a list has given way to a statement of what it started with. The declaration
or the list is lost. -/
structure Demotion (s s' : Store) (x d l p lost : NodeId) (news : List NodeId) : Prop where
  scope_eq : ∀ id, s'.scope? id = s.scope? id
  size_eq : s'.size = s.size + 1
  kind_new : s'.kind s.size = .semicolon
  head : ∀ id < s.size, (s'.head id).bare = (s.head id).bare
  role : ∀ id < s.size, id ≠ x → id ≠ lost → s'.role? id = s.role? id
  role_self : s'.role? x = some .expression
  parent_self : s'.parent? x = some s.size
  parent_lost : s'.parent? lost = none
  parent : ∀ id < s.size, id ≠ x → id ≠ lost → s'.parent? id = s.parent? id
  row : ∀ y < s.size, y ≠ p → y ≠ l → y ≠ d → s'.children y = s.children y
  row_new : s'.children s.size = [x]
  place : ∃ before behind, s.children p = before ++ l :: behind ∧
    s'.children p = before ++ news ++ behind
  beside : Beside s s' d l lost news

namespace Demotion

variable {news : List NodeId} (h : Demotion s s' x d l p lost news)

include h

theorem lost_eq : lost = l ∨ lost = d := by
  cases h.beside with
  | instead => exact .inl rfl
  | before | behind => exact .inr rfl

theorem kind_eq {id : NodeId} (hid : id < s.size) : s'.kind id = s.kind id :=
  Head.kind_of_bare (h.head id hid)

/-- Apart from the list and the declaration, what stands beside the list stays as it is. -/
theorem inner_eq (hs : s.Forest) (hs' : s'.Forest) {c : NodeId} (hc : c < s.size)
    (hp : ¬ s.Within p c) (hl : ¬ s.Within l c) (hd : ¬ s.Within d c) : s'.inner c = s.inner c := by
  have hlt : ∀ y, s.Within y c → y < s.size := by
    intro y hy
    rcases hy.cases with rfl | ⟨q, hq, -⟩
    · exact hc
    · exact parent?_lt hq
  refine hs.inner_congr hs' (fun y hy => h.kind_eq (hlt y hy)) fun y hy => ?_
  refine h.row y (hlt y hy) ?_ ?_ ?_
  · rintro rfl; exact hp hy
  · rintro rfl; exact hl hy
  · rintro rfl; exact hd hy

theorem filter_bodyNodes (hf : s.Forest) (hf' : s'.Forest)
    (hchild : s.children d = [x]) (hlink : s.parent? d = some l) (hlinkl : s.parent? l = some p)
    (hkind : s.kind d = .declaration) (hlist : s.kind l = .varList) {K : NodeId → Bool}
    (hK : ∀ c, K c → c < s.size ∧ ¬ (c = d ∨ c = lost) ∧ s.kind c ≠ .varList) :
    (s'.bodyNodes p).filter K = (s.bodyNodes p).filter K := by
  obtain ⟨before, behind, hsplit, hsplit'⟩ := h.place
  have hlinkx : s.parent? x = some d := hf.parent?_of_mem (by rw [hchild]; exact List.mem_cons_self)
  have hpl : ¬ s.Within p l := hf.acyclic l p hlinkl
  have hld : ¬ s.Within l d := hf.acyclic d l hlink
  have hdx : ¬ s.Within d x := hf.acyclic x d hlinkx
  -- What stands beside the list is not above it.
  have hbeside : ∀ c ∈ before ++ behind, s'.inner c = s.inner c := by
    intro c hc
    have hmem : c ∈ s.children p := by
      rw [hsplit]
      exact (List.mem_append.mp hc).elim (List.mem_append_left _)
        fun hc => List.mem_append_right _ (List.mem_cons_of_mem _ hc)
    have hne : c ≠ l := by
      rintro rfl
      have hnodup := hsplit ▸ hf.nodup p
      exact (List.nodup_middle.mp hnodup).notMem hc
    have hlc : ¬ s.Within l c := hf.not_within_sibling hlinkl (hf.parent?_of_mem hmem) hne.symm
    refine h.inner_eq hf hf' (hf.child_lt hmem) (hf.not_within_child hmem) hlc fun hdc => ?_
    rcases hdc.cases with rfl | ⟨q, hq, hqc⟩
    · obtain rfl := Option.some_inj.mp (hlink.symm.trans (hf.parent?_of_mem hmem))
      exact hpl .refl
    · obtain rfl := Option.some_inj.mp (hlink.symm.trans hq)
      exact hlc hqc
  have hx : s'.inner x = s.inner x := by
    refine h.inner_eq hf hf' (parent?_lt hlinkx) (fun hpx => hdx ?_) (fun hlx => hdx ?_) hdx
    · exact ((within_of_parent hlink).trans (within_of_parent hlinkl)).trans hpx
    · exact (within_of_parent hlink).trans hlx
  have hothers : ∀ c ∈ s.children l, c ≠ d → s'.inner c = s.inner c := by
    intro c hc hne
    have hdc := hf.not_within_sibling hlink (hf.parent?_of_mem hc) hne.symm
    refine h.inner_eq hf hf' (hf.child_lt hc) (fun hpc => ?_) (hf.not_within_child hc) hdc
    exact hf.not_within_child hc ((within_of_parent hlinkl).trans hpc)
  have hkindl : s'.kind l = .varList := (h.kind_eq (parent?_lt hlinkl)).trans hlist
  have hinnerd : s.inner d = d :: s.inner x := by
    rw [hf.inner_eq, if_neg (by simp [hkind]), bodyNodes_eq, hchild, List.flatMap_singleton]
  have hinnerl : s.inner l = l :: (s.children l).flatMap s.inner := by
    rw [hf.inner_eq, if_neg (by simp [hlist]), bodyNodes_eq]
  have hinnerl' : s'.inner l = l :: (s'.children l).flatMap s'.inner := by
    rw [hf'.inner_eq, if_neg (by simp [hkindl]), bodyNodes_eq]
  have hinnernew : s'.inner s.size = s.size :: s.inner x := by
    rw [hf'.inner_eq, if_neg (by simp [h.kind_new]), bodyNodes_eq, h.row_new,
      List.flatMap_singleton, hx]
  -- The statement, the list and the declaration do not count.
  have hnew : ¬ K s.size := fun hKw => Nat.lt_irrefl _ (hK _ hKw).1
  have hnotl : ¬ K l := fun hKl => (hK l hKl).2.2 hlist
  have hnotd : ¬ K d := fun hKd => (hK d hKd).2.1 (.inl rfl)
  have hrest : ∀ {rest : List NodeId}, (∀ c ∈ rest, c ∈ s.children l ∧ c ≠ d) →
      rest.flatMap s'.inner = rest.flatMap s.inner := fun hmem =>
    List.flatMap_congr fun c hc => hothers c (hmem c hc).1 (hmem c hc).2
  refine filter_bodyNodes_place news hsplit hsplit' hbeside ?_
  have hnodup := hf.nodup l
  cases h.beside with
  | instead hsole =>
      rw [hinnerl, hsole, List.flatMap_singleton, List.flatMap_singleton, hinnerd, hinnernew]
      simp only [List.filter_cons, hnew, hnotl, hnotd, if_false, Bool.false_eq_true]
  | @before rest hfirst hlast =>
      rw [hfirst] at hnodup
      have hmem : ∀ c ∈ rest, c ∈ s.children l ∧ c ≠ d := by
        intro c hc
        refine ⟨hfirst ▸ List.mem_cons_of_mem _ hc, ?_⟩
        rintro rfl
        exact (List.nodup_cons.mp hnodup).1 hc
      rw [hinnerl, hfirst]
      simp only [List.flatMap_cons, List.flatMap_nil, List.append_nil, hinnerd, hinnernew, hinnerl',
        hlast, hrest hmem]
      simp only [List.filter_cons, List.filter_append, List.cons_append, hnew, hnotl, hnotd, if_false,
        Bool.false_eq_true]
  | @behind rest hlast hfirst =>
      rw [hlast, List.nodup_append] at hnodup
      have hmem : ∀ c ∈ rest, c ∈ s.children l ∧ c ≠ d := by
        intro c hc
        exact ⟨hlast ▸ List.mem_append_left _ hc, hnodup.2.2 c hc d List.mem_cons_self⟩
      rw [hinnerl, hlast]
      simp only [List.flatMap_append, List.flatMap_cons, List.flatMap_nil, List.append_nil, hinnerd,
        hinnernew, hinnerl', hfirst, hrest hmem]
      simp only [List.filter_cons, List.filter_append, List.cons_append, hnew, hnotl, hnotd, if_false,
        Bool.false_eq_true]

/-- A declaration gives way to its initializer, which can have an effect. -/
theorem removal (hs : s.Sound) (ho : s.Ordered) (hevolves : s.Evolves s') (hordered : s'.Ordered)
    (howner : s.Owner G) (hinside : s.Inside G d) (hkind : s.kind d = .declaration)
    (hlink : s.parent? d = some l) (hlist : s.kind l = .varList) (hlinkl : s.parent? l = some p)
    (hstatements : (s.kind p).isStatementList) (hplain : s.child? d .names = none)
    (hchild : s.child? d .initializer = some x) (heffect : (s.view x).isEffectFree = false)
    (hidle : s.Idle G (s.text d)) :
    Removal s s' p (fun y => y = l ∨ y = d) (fun c => c = x ∨ c = lost)
      (fun c => c = d ∨ c = lost) := by
  have hchildren : s.children d = [x] := by rw [children_of_plain hs hkind hplain, hchild]; rfl
  have hlinkx : s.parent? x = some d := hs.parent?_of_mem (mem_of_child? hchild)
  have hparent : s.parentKind? d = some .varList := by rw [parentKind?_of_parent hlink, hlist]
  have hdrop : s.Droppable d := .declaration howner hinside hkind hparent hplain hidle
  have hlost : s.Droppable lost := h.lost_eq.elim (fun heq => heq ▸ .list hlist) fun heq => heq ▸ hdrop
  have hinsidel : s.Inside G l := by
    refine (hinside.parent_of hs.toLinked hlink).resolve_left ?_
    rintro rfl
    rcases hs.ownsBody howner with hcase | hcase <;> rw [hlist] at hcase <;> cases hcase
  have hexpression : (s.head x).isExpression :=
    (ho.admits hlinkx).role .initializer (role?_of_child? hchild) rfl
  have hx : s.hasEffect x := by
    refine hasEffect_iff.mpr ⟨role?_of_child? hchild, ?_, ?_, heffect⟩
    · rw [parentKind?_of_parent hlinkx, hkind]
    · rw [hlinkx, Option.bind_some, hparent]
  have hnew : ∀ {c}, c < s.size → c ≠ s.size := fun hc => Nat.ne_of_lt hc
  have hstatement : ∀ {kind : Kind}, s.kind p = kind → kind.isStatementList := fun heq =>
    heq ▸ hstatements
  refine ⟨hevolves, hordered, h.scope_eq, fun id hid => ?_, h.head, ?_, ?_, ?_, ?_, ?_, ?_, ?_, ?_, ?_,
    ?_, ?_, ?_, ?_, ?_⟩
  · rcases Nat.eq_or_lt_of_le hid with rfl | hlt
    · exact .inl h.kind_new
    · exact .inr (by rw [h.size_eq]; exact hlt)
  · intro y hy hp hT
    rw [not_or] at hT
    exact h.row y hy hp hT.1 hT.2
  · rintro y q (rfl | rfl) hq
    · exact .inl (Option.some_inj.mp (hq.symm.trans hlinkl))
    · exact .inr (.inl (Option.some_inj.mp (hq.symm.trans hlink)))
  · rintro y (rfl | rfl)
    · exact .inl hlist
    · exact .inr hkind
  · exact fun hfunction => by cases hstatement hfunction
  · intro hoperation
    cases hcase : s.kind p <;>
      simp_all [Kind.isStatementList, Kind.isOperation, Kind.isStatement]
  · refine ⟨G, howner, ⟨_, hidle⟩, ?_⟩
    rintro y (rfl | rfl | rfl)
    · exact hinsidel.parent_of hs.toLinked hlinkl
    · exact .inr hinsidel
    · exact .inr hinside
  · intro c q hq hcut
    rw [not_or] at hcut
    have hc := parent?_lt hq
    exact ⟨(h.parent c hc hcut.1 hcut.2).trans hq, h.role c hc hcut.1 hcut.2⟩
  · intro c q hc hq hlinkc
    by_cases hcx : c = x
    · rw [hcx, h.parent_self, Option.some_inj] at hlinkc
      exact absurd hlinkc.symm (hnew hq)
    by_cases hcl : c = lost
    · rw [hcl, h.parent_lost] at hlinkc
      cases hlinkc
    · exact ⟨(h.parent c hc hcx hcl).symm.trans hlinkc, not_or.mpr ⟨hcx, hcl⟩⟩
  · intro c q hc hq hlinkc
    by_cases hcx : c = x
    · exact hcx ▸ hx
    by_cases hcl : c = lost
    · rw [hcl, h.parent_lost] at hlinkc
      cases hlinkc
    · rw [h.parent c hc hcx hcl] at hlinkc
      exact absurd (hs.parent_lt hlinkc) (Nat.not_lt_of_le hq)
  · rintro c (rfl | rfl)
    · refine .inr ⟨hx, isAlone_iff.mpr ⟨h.role_self, ?_⟩⟩
      rw [parentKind?_of_parent h.parent_self, h.kind_new]
    · exact .inl hlost
  · intro y e hy hcut he hecut
    have hparentKind := (hasEffect_iff.mp hy).2.1
    rw [parentKind?_of_parent he, Option.some_inj] at hparentKind
    rcases hecut with rfl | rfl
    · rw [Head.isExpression, show (s.head e).kind = .declaration from hparentKind] at hexpression
      cases hexpression
    · rcases h.lost_eq with rfl | rfl
      · rw [hlist] at hparentKind
        cases hparentKind
      · have hmem := (hs.linked _ y).mpr he
        rw [hchildren, List.mem_singleton] at hmem
        exact hcut (.inl hmem)
  · rintro c (rfl | rfl)
    · exact .inl hdrop
    · exact .inl hlost
  · rintro c q hc hq
    by_cases hcl : c = lost
    · rw [hcl, h.parent_lost] at hq
      cases hq
    · obtain rfl := hc.resolve_right hcl
      have hne : c ≠ x := by
        rintro rfl
        exact ho.toForest.acyclic c c hlinkx .refl
      rw [h.parent c (parent?_lt hlink) hne hcl, hlink, Option.some_inj] at hq
      have heq : lost = l := h.lost_eq.resolve_right fun heq => hcl heq.symm
      exact ⟨.inr (hq.symm.trans heq.symm), by simp [← hq, hlist]⟩
  · exact fun K hK => h.filter_bodyNodes ho.toForest hordered.toForest hchildren hlink hlinkl hkind
      hlist hK

end Demotion

section

variable {s₁ : Store} (hs : s.Forest) (hd : Demoted s s₁ x) (hs₁ : s₁.Linked)
  (hlinkx : s.parent? x = some d) (hlink : s.parent? d = some l) (hlinkl : s.parent? l = some p)

include hd in
theorem Demoted.children_of_ne (hs : s.Linked) (hlinkx : s.parent? x = some d) (hy : y < s.size)
    (hne : y ≠ d) : s₁.children y = s.children y := by
  rw [hd.children, if_neg (Nat.ne_of_lt hy)]
  refine List.filter_eq_self.mpr fun c hc => decide_eq_true ?_
  rintro rfl
  exact hne (Option.some_inj.mp ((hs.parent?_of_mem hc).symm.trans hlinkx))

include hs hd hs₁ hlinkx hlink hlinkl

/-- The statement takes the place of a list of one declaration. -/
theorem demotion_instead (hsole : s.children l = [d]) :
    Demotion s ((s₁.replace l s.size).setRole s.size none) x d l p l [s.size] := by
  have hx := parent?_lt hlinkx
  have hl := parent?_lt hlinkl
  have hp := hs.parent_lt hlinkl
  have hne : l ≠ s.size := Nat.ne_of_lt hl
  have hw : s.size < s₁.size := hd.size_eq ▸ Nat.lt_succ_self _
  have hxl : x ≠ l := by
    rintro rfl
    exact hs.acyclic x d hlinkx (within_of_parent hlink)
  have hpd : p ≠ d := by
    rintro rfl
    exact hs.acyclic p l hlink (within_of_parent hlinkl)
  have hlink₁ : s₁.parent? l = some p := by rw [hd.parent, if_neg hxl.symm, hlinkl]
  have hparent : ∀ id, ((s₁.replace l s.size).setRole s.size none).parent? id =
      if id = s.size then some p else if id = l then none else s₁.parent? id := by
    intro id
    rw [parent?_setRole, parent?_replace hne hw, hlink₁]
  have hrow : ∀ y, ((s₁.replace l s.size).setRole s.size none).children y = if y = p then
      (s₁.children y).map fun c => if c = l then s.size else c else s₁.children y := by
    intro y
    rw [setRole, children_modifyHead, children_replace hs₁ hlink₁ (hd.parent?_new hx) hne]
  refine ⟨fun id => ?_, ?_, ?_, fun id hid => ?_, fun id hid hidx _ => ?_, ?_, ?_, ?_,
    fun id hid hidx hidl => ?_, fun y hy hyp hyl hyd => ?_, ?_, ?_, .instead hsole⟩
  · rw [scope?_setRole, scope?_replace, hd.scope_eq]
  · rw [setRole, size_modifyHead, size_replace, hd.size_eq]
  · rw [kind_setRole]
    exact (Head.kind_of_bare bare_replace).trans hd.kind_new
  · rw [bare_setRole, bare_replace, hd.head id hid]
  · rw [role?_setRole_of_ne (Nat.ne_of_lt hid), role?_replace (Nat.ne_of_lt hid), hd.role id hid hidx]
  · rw [role?_setRole_of_ne (Nat.ne_of_lt hx), role?_replace (Nat.ne_of_lt hx), hd.role_self]
  · rw [hparent, if_neg (Nat.ne_of_lt hx), if_neg hxl, hd.parent, if_pos rfl]
  · rw [hparent, if_neg hne, if_pos rfl]
  · rw [hparent, if_neg (Nat.ne_of_lt hid), if_neg hidl, hd.parent, if_neg hidx]
  · rw [hrow, if_neg hyp, hd.children_of_ne hs.toLinked hlinkx hy hyd]
  · rw [hrow, if_neg (Nat.ne_of_gt hp), hd.children, if_pos rfl]
  · obtain ⟨before, behind, hsplit⟩ := List.append_of_mem ((hs.linked p l).mpr hlinkl)
    refine ⟨before, behind, hsplit, ?_⟩
    rw [hrow, if_pos rfl, hd.children_of_ne hs.toLinked hlinkx hp hpd, hsplit,
      map_swap (hsplit ▸ hs.nodup p), List.append_assoc, List.singleton_append]

/-- The statement is put beside the list, and the declaration is taken away. -/
theorem demotion_beside {front back : List NodeId} (index : Nat) (news : List NodeId)
    (hsplit : s.children p = before ++ l :: behind) (hindex : index ≤ (s.children p).length)
    (hnews : (s.children p).insertIdx index s.size = before ++ news ++ behind)
    (hlist : s.children l = front ++ d :: back)
    (hbeside : ∀ s' : Store, s'.children l = front ++ back → Beside s s' d l d news) :
    Demotion s (((s₁.insert p index s.size).remove d).setRole s.size none) x d l p d news ∧
      (((s₁.insert p index s.size).remove d).setRole s.size none).children l = front ++ back := by
  have hx := parent?_lt hlinkx
  have hd' := parent?_lt hlink
  have hl := parent?_lt hlinkl
  have hp := hs.parent_lt hlinkl
  have hw : s.size < s₁.size := hd.size_eq ▸ Nat.lt_succ_self _
  have hp₁ : p < s₁.size := hp.trans hw
  have hnone := hd.parent?_new hx
  have hxd : x ≠ d := by
    rintro rfl
    exact hs.acyclic x x hlinkx .refl
  have hpd : p ≠ d := by
    rintro rfl
    exact hs.acyclic p l hlink (within_of_parent hlinkl)
  have hlp : l ≠ p := by
    rintro rfl
    exact hs.acyclic l l hlinkl .refl
  have hld : l ≠ d := by
    rintro rfl
    exact hs.acyclic l l hlink .refl
  have hlinked : (s₁.insert p index s.size).Linked := by
    rw [insert_eq]
    refine hs₁.attach (fun ids => List.perm_insertIdx s.size ids (Nat.min_le_right _ _)) hp₁ hw ?_
    rw [hd.root_eq]
    exact Nat.ne_of_gt hs.root_lt
  have hparent : ∀ id, (((s₁.insert p index s.size).remove d).setRole s.size none).parent? id =
      if id = d then none else if id = s.size then some p else s₁.parent? id := by
    intro id
    rw [parent?_setRole, parent?_remove, parent?_insert hw]
  have hchildrenp : s₁.children p = s.children p := hd.children_of_ne hs.toLinked hlinkx hp hpd
  have hrow : ∀ y, (((s₁.insert p index s.size).remove d).setRole s.size none).children y =
      (if y = p then (s₁.children y).insertIdx index s.size else s₁.children y).filter (· ≠ d) := by
    intro y
    rw [setRole, children_modifyHead, hlinked.children_remove,
      children_insert hp₁ hnone (by rwa [hchildrenp])]
  have hkeep : ∀ {ids : List NodeId}, d ∉ ids → ids.filter (· ≠ d) = ids := fun hnot =>
    List.filter_eq_self.mpr fun c hc => decide_eq_true fun heq => hnot (heq ▸ hc)
  have hother : ∀ y, y ≠ l → d ∉ s.children y := by
    intro y hy hmem
    exact hy (Option.some_inj.mp ((hs.parent?_of_mem hmem).symm.trans hlink))
  have hhead : ∀ id, ((((s₁.insert p index s.size).remove d).setRole s.size none).head id).bare =
      (s₁.head id).bare := by
    intro id
    rw [bare_setRole, bare_remove, insert_eq, head_attach]
  have hrole : ∀ id < s.size, id ≠ d →
      (((s₁.insert p index s.size).remove d).setRole s.size none).role? id = s₁.role? id := by
    intro id hid hne
    rw [role?_setRole_of_ne (Nat.ne_of_lt hid), role?_remove hne, insert_eq, role?, head_attach]
    rfl
  have hothers : (((s₁.insert p index s.size).remove d).setRole s.size none).children l =
      front ++ back := by
    rw [hrow, if_neg hlp, hd.children_of_ne hs.toLinked hlinkx hl hld, hlist]
    exact filter_ne_append (hlist ▸ hs.nodup l)
  refine ⟨⟨fun id => ?_, ?_, ?_, fun id hid => ?_, fun id hid hidx hidd => ?_, ?_, ?_, ?_,
    fun id hid hidx hidd => ?_, fun y hy hyp hyl hyd => ?_, ?_, ?_, hbeside _ hothers⟩, hothers⟩
  · rw [scope?_setRole, scope?_remove, insert_eq, scope?_attach, hd.scope_eq]
  · rw [setRole, size_modifyHead, size_remove, insert_eq, size_attach, hd.size_eq]
  · exact (Head.kind_of_bare (hhead s.size)).trans hd.kind_new
  · rw [hhead, hd.head id hid]
  · rw [hrole id hid hidd, hd.role id hid hidx]
  · rw [hrole x hx hxd, hd.role_self]
  · rw [hparent, if_neg hxd, if_neg (Nat.ne_of_lt hx), hd.parent, if_pos rfl]
  · rw [hparent, if_pos rfl]
  · rw [hparent, if_neg hidd, if_neg (Nat.ne_of_lt hid), hd.parent, if_neg hidx]
  · rw [hrow, if_neg hyp, hd.children_of_ne hs.toLinked hlinkx hy hyd, hkeep (hother y hyl)]
  · rw [hrow, if_neg (Nat.ne_of_gt hp), hd.children, if_pos rfl, hkeep]
    rw [List.mem_singleton]
    exact hxd.symm
  · refine ⟨before, behind, hsplit, ?_⟩
    rw [hrow, if_pos rfl, hchildrenp, hkeep, hnews]
    rw [List.mem_insertIdx hindex, not_or]
    exact ⟨Nat.ne_of_lt hd', hother p hlp.symm⟩

end

/-! ### A function gives way to an empty statement -/

/-- An unused function that is not among statements gives way to an empty statement. -/
theorem removal_replace {s₁ : Store} {head : Head} (h : s.Sound) (hs : s.Ordered)
    (hadd : Added s s₁ head) (hhead : head.kind = .semicolon) (hG : s.kind G = .function)
    (hinside : s.Inside G f) (hkind : s.kind f = .function)
    (hdeclared : Tree.isDeclaredFunction (s.head f)) (hlink : s.parent? f = some p)
    (hidle : s.Idle G (s.text f)) (hevolves : s.Evolves (s₁.replace f s.size))
    (hordered : (s₁.replace f s.size).Ordered) :
    Removal s (s₁.replace f s.size) p (fun _ => False) (· = f) (· = f) := by
  have hf := parent?_lt hlink
  have hne : f ≠ s.size := Nat.ne_of_lt hf
  have hw : s.size < s₁.size := hadd.size_eq ▸ Nat.lt_succ_self _
  have hlink₁ : s₁.parent? f = some p := by rw [hadd.parent_eq, hlink]
  have hnone : s₁.parent? s.size = none := by
    rw [hadd.parent_eq, parent?_of_size_le (Nat.le_refl _)]
  have hdrop : s.Droppable f := .function hG hinside hkind hdeclared hidle
  obtain ⟨hfunction, hoperation⟩ := function_parent h hs hkind hdeclared hlink
  have hnew : (s₁.replace f s.size).kind s.size = .semicolon := by
    refine (Head.kind_of_bare bare_replace).trans ?_
    rw [hadd.head_eq, if_pos rfl, hhead]
  have hbare : ∀ c < s.size, ((s₁.replace f s.size).head c).bare = (s.head c).bare := by
    intro c hc
    rw [bare_replace, hadd.head_of_lt hc]
  have hparent : ∀ c, (s₁.replace f s.size).parent? c =
      if c = s.size then some p else if c = f then none else s.parent? c := by
    intro c
    rw [parent?_replace hne hw, hlink₁, hadd.parent_eq]
  have hrow : ∀ y, (s₁.replace f s.size).children y =
      if y = p then (s.children y).map fun c => if c = f then s.size else c else s.children y := by
    intro y
    rw [children_replace hadd.linked hlink₁ hnone hne, hadd.children_eq]
  refine ⟨hevolves, hordered, fun c => ?_, fun c hc => ?_, hbare, fun y hy hyp _ => ?_,
    fun _ _ hT => hT.elim, fun _ hT => hT.elim, hfunction, by simp [hoperation],
    ⟨G, .inr hG, ⟨_, hidle⟩, fun y hy => (hy.resolve_right id) ▸ hinside.parent_of h.toLinked hlink⟩,
    fun c q hq hcf => ?_, fun c q hc hq hq' => ?_, fun c q hc hlt hq => ?_,
    fun c hc => .inl (hc ▸ hdrop),
    fun x d hx _ hd hdf => ?_, fun c hc => .inl (hc ▸ hdrop), fun c q hc hq => ?_, fun K hK => ?_⟩
  · rw [scope?_replace, hadd.scope_eq]
  · rcases Nat.eq_or_lt_of_le hc with rfl | hlt
    · exact .inl hnew
    · exact .inr (by rw [size_replace, hadd.size_eq]; exact hlt)
  · rw [hrow, if_neg hyp]
  · have hc := Nat.ne_of_lt (parent?_lt hq)
    refine ⟨by rw [hparent, if_neg hc, if_neg hcf, hq], ?_⟩
    rw [role?_replace hc, role?, hadd.head_of_lt (parent?_lt hq)]
    rfl
  · rw [hparent, if_neg (Nat.ne_of_lt hc)] at hq'
    split at hq'
    · cases hq'
    · exact ⟨hq', ‹_›⟩
  · rw [hparent, if_neg (Nat.ne_of_lt hc)] at hq
    split at hq
    · cases hq
    · exact absurd (h.parent_lt hq) (Nat.not_lt_of_le hlt)
  · have hparentKind := (hasEffect_iff.mp hx).2.1
    rw [hdf] at hd
    rw [parentKind?_of_parent hd, hkind] at hparentKind
    cases hparentKind
  · rw [hparent, if_neg (hc ▸ hne), if_pos hc] at hq
    cases hq
  · obtain ⟨before, behind, hsplit⟩ := List.append_of_mem ((h.linked p f).mpr hlink)
    have hnodup := hsplit ▸ h.nodup p
    refine filter_bodyNodes_place [s.size] hsplit ?_ ?_ ?_
    · rw [hrow, if_pos rfl, hsplit, map_swap hnodup, List.append_assoc, List.singleton_append]
    · intro c hc
      have hmem : c ∈ s.children p := by
        rw [hsplit]
        exact (List.mem_append.mp hc).elim (List.mem_append_left _)
          fun hc => List.mem_append_right _ (List.mem_cons_of_mem _ hc)
      have hlt : ∀ x, s.Within x c → x < s.size := by
        intro x hx
        rcases hx.cases with rfl | ⟨q, hq, -⟩
        · exact hs.toForest.child_lt hmem
        · exact parent?_lt hq
      refine hs.toForest.inner_congr hordered.toForest
        (fun x hx => Head.kind_of_bare (hbare x (hlt x hx))) fun x hx => ?_
      rw [hrow, if_neg (hs.toForest.ne_of_within hmem hx)]
    · have hnil : (s₁.replace f s.size).children s.size = [] := by
        rw [hrow, if_neg (Nat.ne_of_gt (h.parent_lt hlink)), children_of_size_le (Nat.le_refl _)]
      have hnotw : ¬ K s.size := fun hKw => Nat.lt_irrefl _ (hK _ hKw).1
      have hnotf : ¬ K f := fun hKf => (hK f hKf).2.1 rfl
      rw [List.flatMap_singleton, inner_of_children_eq_nil hordered.toForest hnil,
        inner_function hs.toForest hkind, List.filter_singleton, List.filter_singleton]
      simp [hnotw, hnotf]

/-! ### A function loses its name -/

/-- A function that does not use its own name loses it. -/
theorem thins_setPayload (h : s.Sound) (hs : s.Ordered) (hnames : s.NamesItself f)
    (hidle : s.Idle f (s.text f)) (hordered : (s.setPayload f .none).Ordered) :
    Thins s (s.setPayload f .none) := by
  have hlt : f < s.size := lt_of_kind (by simp [hnames.1])
  have hhead : ∀ id, (s.setPayload f .none).head id =
      if id = f then { s.head id with payload := .none } else s.head id := by
    intro id
    rw [setPayload, head_modifyHead]
    simp [hlt]
  have hother : ∀ id, id ≠ f → (s.setPayload f .none).head id = s.head id := by
    intro id hne
    rw [hhead, if_neg hne]
  have hself : (s.setPayload f .none).head f = { s.head f with payload := .none } := by
    rw [hhead, if_pos rfl]
  have hrow : ∀ y, (s.setPayload f .none).children y = s.children y := fun _ => children_modifyHead _
  have hlink : ∀ y, (s.setPayload f .none).parent? y = s.parent? y := fun _ => parent?_modifyHead _
  have hsame : ∀ {α : Type} (g : Head → α), (∀ head : Head, g { head with payload := .none } = g head) →
      ∀ id, g ((s.setPayload f .none).head id) = g (s.head id) := by
    intro α g hg id
    rw [hhead]
    split
    · exact hg _
    · rfl
  have hkind : ∀ id, (s.setPayload f .none).kind id = s.kind id := hsame Head.kind fun _ => rfl
  have hrole : ∀ id, (s.setPayload f .none).role? id = s.role? id := hsame Head.role fun _ => rfl
  have hparentKind : ∀ id, (s.setPayload f .none).parentKind? id = s.parentKind? id := by
    intro id
    rw [parentKind?, parentKind?, hlink]
    exact congrArg (fun g => (s.parent? id).map g) (funext hkind)
  have hinner : ∀ y, (s.setPayload f .none).inner y = s.inner y := fun y =>
    hs.toForest.inner_congr hordered.toForest (fun x _ => hkind x) fun x _ => hrow x
  have hbody : ∀ y, (s.setPayload f .none).bodyNodes y = s.bodyNodes y := by
    intro y
    rw [bodyNodes_eq, bodyNodes_eq, hrow]
    exact List.flatMap_congr fun c _ => hinner c
  refine ⟨evolves_setPayload h .none (by simp [hnames.1]), hordered, fun _ => scope?_modifyHead _,
    fun id hid => .inr (by rwa [setPayload, size_modifyHead]), fun id _ => ?_,
    fun y _ _ _ => hrow y, fun _ _ _ y _ => hrow y, fun c p hp _ => ⟨(hlink c).trans hp, hrole c⟩,
    fun c p _ _ hp => ⟨(hlink c).symm.trans hp, hrole c⟩,
    fun c p _ hlt hp => absurd (h.parent_lt ((hlink c).symm.trans hp)) (Nat.not_lt_of_le hlt),
    fun x hx => ?_, fun y c hy hc _ => ?_,
    fun y _ _ => ?_⟩
  · by_cases hid : id = f
    · subst hid
      exact .inr ⟨hnames, hidle, by rw [hself]; rfl⟩
    · exact .inl (by rw [hother id hid])
  · rw [hasEffect_iff, isAlone_iff] at hx ⊢
    simp only [hrole, hlink, hparentKind]
    refine hx.imp_left fun hx => ?_
    obtain ⟨hinitializer, hparent, hlist, heffect⟩ := hx
    refine ⟨hinitializer, hparent, hlist, ?_⟩
    obtain ⟨d, hd, hdeclaration⟩ := Option.map_eq_some_iff.mp hparent
    have houtline := hs.toForest.outline_view_eq (x := x) hordered.toForest (fun y _ => hkind y)
      (fun y _ => hsame Head.span (fun _ => rfl) y) (fun y _ hop => ?_) (fun y _ _ _ => hrow y)
      (parent?_lt hd)
      (not_inFrame_of_mem hs.toLinked ((hs.linked d x).mpr hd) (by simp [hdeclaration]))
    · rw [← Tree.isEffectFree_outline, houtline, Tree.isEffectFree_outline, heffect]
    · rw [hother y]
      rintro rfl
      rw [hnames.1] at hop
      cases hop
  · refine hordered.toForest.mem_bodyNodes.mp ?_
    rw [hbody]
    exact hs.toForest.mem_bodyNodes.mpr hc
  · rw [hbody]
    exact List.filter_sublist

end Store

end ScriptMin
