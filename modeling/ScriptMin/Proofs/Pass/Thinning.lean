import ScriptMin.Proofs.Pass.Placing
import ScriptMin.Proofs.Store.Bodies
import ScriptMin.Proofs.Tree.Outline

/-!
Stores that lose what is not needed. What may go away are parameters, declarations and functions
whose names are idle, lists that are left empty, and values without effect; all else stays in its
body, in the same order.
-/

namespace ScriptMin

namespace Head

variable {h h' : Head}

theorem kind_of_bare (heq : h'.bare = h.bare) : h'.kind = h.kind :=
  show h'.bare.kind = h.bare.kind by rw [heq]

/-- A head is what does not depend on where the node stands, and what does. -/
theorem eq_of_bare (hbare : h'.bare = h.bare) (hflags : h'.flags = h.flags)
    (hrole : h'.role = h.role) : h' = h := by
  have hback : ∀ g : Head, g = { g.bare with role := g.role, flags := g.flags } := fun _ => rfl
  rw [hback h', hback h, hbare, hflags, hrole]

theorem form_of_bare (heq : h'.bare = h.bare) : h'.form = h.form :=
  show h'.bare.form = h.bare.form by rw [heq]

theorem span_of_bare (heq : h'.bare = h.bare) : h'.span = h.span :=
  show h'.bare.span = h.bare.span by rw [heq]

theorem text?_of_bare (heq : h'.bare = h.bare) : h'.text? = h.text? :=
  show h'.bare.text? = h.bare.text? by rw [heq]

theorem isAccessor_of_bare (heq : h'.bare = h.bare) : Tree.isAccessor h' = Tree.isAccessor h :=
  show Tree.isAccessor h'.bare = Tree.isAccessor h.bare by rw [heq]

end Head

/-- A value without effect is no statement, unless it is a function. -/
theorem Tree.isStatement_of_isEffectFree {t : Tree} (h : t.isEffectFree) :
    t.kind = .function ∨ t.kind.isStatement = false := by
  obtain ⟨head, children⟩ := t
  rw [isEffectFree] at h
  rw [kind, Tree.head]
  cases hkind : head.kind <;> first | exact .inl rfl | exact .inr rfl | (rw [hkind] at h; cases h)

namespace Store

variable {s s' s'' : Store} {id G c d p x y : NodeId} {name : String}

/-! ### What may go away -/

/-- A name is declared in a body in vain, as far as the last scan tells. -/
def Idle (s : Store) (G : NodeId) (name : String) : Prop :=
  ∃ scope, s.scope? G = some scope ∧ scope.usesEval = false ∧ name ∈ scope.unused

/-- Whether a node is what a `var` declaration starts with, and can have an effect. -/
def hasEffect (s : Store) (x : NodeId) : Bool :=
  s.role? x == some .initializer && s.parentKind? x == some .declaration &&
    (s.parent? x).bind s.parentKind? == some .varList && !(s.view x).isEffectFree

def isAlone (s : Store) (x : NodeId) : Bool :=
  s.role? x == some .expression && s.parentKind? x == some .semicolon

/-- A node that can be taken out of its body. -/
inductive Droppable (s : Store) : NodeId → Prop where
  | parameter {G params c : NodeId} (kind_owner : s.kind G = .function)
      (child : s.child? G .params = some params) (mem : c ∈ s.children params)
      (kind_eq : s.kind c = .identifier) (idle : s.Idle G (s.text c)) : Droppable s c
  | list {c : NodeId} (kind_eq : s.kind c = .varList) : Droppable s c
  | declaration {G c : NodeId} (owner : s.Owner G) (inside : s.Inside G c)
      (kind_eq : s.kind c = .declaration) (parentKind_eq : s.parentKind? c = some .varList)
      (plain : s.child? c .names = none) (idle : s.Idle G (s.text c)) : Droppable s c
  | function {G c : NodeId} (kind_owner : s.kind G = .function) (inside : s.Inside G c)
      (kind_eq : s.kind c = .function) (declared : Tree.isDeclaredFunction (s.head c))
      (idle : s.Idle G (s.text c)) : Droppable s c

/-- A node of a value without effect that a declaration starts with. -/
structure Effectless (s : Store) (c : NodeId) : Prop where
  effectFree : (s.view c).isEffectFree
  isExpression : (s.head c).isExpression
  parentKind : s.parentKind? c = some .declaration ∨ s.parentKind? c = some .arrayInit

/-- A node that stays in its body. -/
inductive Lasting (s : Store) : NodeId → Prop where
  | performed {x : NodeId} (performed : s.hasEffect x ∨ s.isAlone x) : Lasting s x
  | construct {c : NodeId} (kind_eq : s.kind c = .catchClause ∨ s.kind c = .forIn) : Lasting s c
  | holder {c : NodeId} (statements : (s.kind c).isStatementList) : Lasting s c
  | listed {d : NodeId} (kind_eq : s.kind d = .declaration)
      (parentKind_ne : s.parentKind? d ≠ some .varList) : Lasting s d
  | patterned {d root : NodeId} (kind_eq : s.kind d = .declaration)
      (child : s.child? d .names = some root) : Lasting s d
  | needed {G d : NodeId} (owner : s.Owner G) (inside : s.Inside G d)
      (declares : s.kind d = .declaration ∨
        s.kind d = .function ∧ Tree.isDeclaredFunction (s.head d))
      (needed : ¬ s.Idle G (s.text d)) : Lasting s d
  | outermost {d : NodeId} (inside : s.Inside s.root d) (kind_eq : s.kind d = .function)
      (declared : Tree.isDeclaredFunction (s.head d)) : Lasting s d

/-- A node that does not leave its parent. -/
structure Fast (s : Store) (c p : NodeId) : Prop where
  not_list : s.kind c ≠ .varList
  not_function : ¬ (s.kind c = .function ∧ Tree.isDeclaredFunction (s.head c))
  not_listed : s.kind p ≠ .varList
  not_initializer : ¬ (s.kind p = .declaration ∧ s.role? c = some .initializer)
  parameter : ∀ G, s.kind G = .function → s.child? G .params = some p → s.kind c = .identifier →
    ¬ s.Idle G (s.text c)

/-- The list of parameters does not leave its function. -/
theorem Sound.fast_params {params : NodeId} (hs : s.Sound) (hG : s.kind G = .function)
    (hchild : s.child? G .params = some params) : s.Fast params G := by
  have hkind := hs.kind_params hG hchild
  refine ⟨by simp [hkind], by simp [hkind], by simp [hG], by simp [hG], ?_⟩
  intro F hF hchild
  have hbad := hs.kind_params hF hchild
  rw [hG] at hbad
  cases hbad

/-- A store has lost at most what is not needed. -/
structure Thins (s s' : Store) : Prop where
  evolves : s.Evolves s'
  ordered : s'.Ordered
  scope_eq : ∀ id, s'.scope? id = s.scope? id
  added : ∀ id, s.size ≤ id → s'.kind id = .semicolon ∨ s'.size ≤ id
  head : ∀ id < s.size, (s'.head id).bare = (s.head id).bare ∨
    s.NamesItself id ∧ s.Idle id (s.text id) ∧
      (s'.head id).bare = { (s.head id).bare with payload := .none }
  row : ∀ y < s.size, (s.kind y).isOperation → ¬ s.InFrame y → s'.children y = s.children y
  calm : ∀ G, s.Owner G → (∀ name, ¬ s.Idle G name) → ∀ y, y = G ∨ s.Inside G y →
    s'.children y = s.children y
  link : ∀ c p, s.parent? c = some p → s.Fast c p →
    s'.parent? c = some p ∧ s'.role? c = s.role? c
  back : ∀ c p, c < s.size → p < s.size → s'.parent? c = some p →
    s.parent? c = some p ∧ s'.role? c = s.role? c
  origin : ∀ c p, c < s.size → s.size ≤ p → s'.parent? c = some p →
    s.role? c = some .initializer ∧ s.parentKind? c = some .declaration
  performed : ∀ x, s.hasEffect x ∨ s.isAlone x → s'.hasEffect x ∨ s'.isAlone x
  lasting : ∀ y c, s.OwnsBody y → s.Inside y c → s.Lasting c → s'.Inside y c
  order : ∀ y < s.size, s.OwnsBody y →
    ((s'.bodyNodes y).filter fun c => c < s.size && s.kind c != .varList).Sublist (s.bodyNodes y)

/-! ### What nodes are -/

theorem Owner.ownsBody (h : s.Sound) (hG : s.Owner G) : s.OwnsBody G := h.ownsBody hG

theorem Inside.owner_lt (hc : s.Inside y c) : y < s.size := by
  induction hc with
  | child hc => exact lt_of_mem_children hc
  | step _ _ _ ih => exact ih

theorem Inside.lt (h : s.Linked) (hc : s.Inside y c) : c < s.size := by
  obtain ⟨p, hp, -⟩ := hc.parent h
  exact parent?_lt hp

namespace Thins

theorem kind_eq (h : Thins s s') (hid : id < s.size) : s'.kind id = s.kind id :=
  h.evolves.kind_eq id hid

theorem idle_iff (h : Thins s s') : s'.Idle G name ↔ s.Idle G name := by
  rw [Idle, Idle, h.scope_eq]

theorem form_eq (h : Thins s s') (hid : id < s.size) :
    (s'.head id).form = (s.head id).form ∧
      Tree.isAccessor (s'.head id) = Tree.isAccessor (s.head id) := by
  rcases h.head id hid with hbare | ⟨-, -, hbare⟩
  · exact ⟨Head.form_of_bare hbare, Head.isAccessor_of_bare hbare⟩
  · -- Without its name the head has the same form.
    have hhead : (s'.head id).bare = ({ s.head id with payload := .none } : Head).bare := hbare
    have hform := Head.form_of_bare hhead
    have haccessor := Head.isAccessor_of_bare hhead
    exact ⟨hform, haccessor⟩

theorem isDeclaredFunction_eq (h : Thins s s') (hid : id < s.size) :
    Tree.isDeclaredFunction (s'.head id) = Tree.isDeclaredFunction (s.head id) := by
  rw [Tree.isDeclaredFunction, Tree.isDeclaredFunction, (h.form_eq hid).1]

theorem namesItself_iff (h : Thins s s') (hid : id < s.size) :
    s'.NamesItself id ↔ s.NamesItself id := by
  rw [NamesItself, NamesItself, h.kind_eq hid, (h.form_eq hid).1, (h.form_eq hid).2]

/-- Only a function that is named inside itself loses its name. -/
theorem text?_eq (h : Thins s s') (hid : id < s.size)
    (hnot : ¬ (s.NamesItself id ∧ s.Idle id (s.text id))) : s'.text? id = s.text? id := by
  rcases h.head id hid with hbare | ⟨hnames, hidle, -⟩
  · exact Head.text?_of_bare hbare
  · exact absurd ⟨hnames, hidle⟩ hnot

theorem text?_eq_of_kind (h : Thins s s') (hid : id < s.size) (hkind : s.kind id ≠ .function) :
    s'.text? id = s.text? id :=
  h.text?_eq hid fun hnot => hkind hnot.1.1

theorem text?_eq_of_declared (h : Thins s s') (hid : id < s.size)
    (hdeclared : Tree.isDeclaredFunction (s.head id)) : s'.text? id = s.text? id := by
  refine h.text?_eq hid fun hnot => ?_
  rw [Tree.isDeclaredFunction, hnot.1.2.1] at hdeclared
  cases hdeclared

theorem text_eq_of_text? (htext : s'.text? id = s.text? id) : s'.text id = s.text id := by
  rw [show s'.text id = (s'.text? id).getD "" from rfl, htext]
  rfl

theorem not_new (h : Thins s s') (hkind : s'.kind id ≠ .semicolon) (hkind' : s'.kind id ≠ .script) :
    id < s.size := by
  by_contra hid
  rcases h.added id (Nat.le_of_not_lt hid) with hnew | hnew
  · exact hkind hnew
  · exact hkind' (kind_of_size_le hnew)

theorem owner_iff (h : Thins s s') : s'.Owner G ↔ s.Owner G := by
  rw [Owner, Owner, h.evolves.root_eq]
  refine or_congr_right ⟨fun hkind => ?_, fun hkind => ?_⟩
  · rwa [← h.kind_eq (h.not_new (by simp [hkind]) (by simp [hkind]))]
  · rwa [h.kind_eq (lt_of_kind (by simp [hkind]))]

theorem ownsBody (h : Thins s s') (hy : s.OwnsBody y) (hlt : y < s.size) : s'.OwnsBody y := by
  rwa [OwnsBody, h.kind_eq hlt]

/-- What is inside a body has been there before, unless it is new. -/
theorem inside_of (h : Thins s s') (hs : s.Forest) (hy : s.OwnsBody y) (hylt : y < s.size)
    (hc : c < s.size) (hkind : s.kind c ≠ .varList) (hinside : s'.Inside y c) : s.Inside y c := by
  have hmem := h.ordered.toForest.mem_bodyNodes.mpr hinside
  refine hs.mem_bodyNodes.mp ((h.order y hylt hy).subset (List.mem_filter.mpr ⟨hmem, ?_⟩))
  simp [hc, hkind]

theorem not_inFrame (h : Thins s s') (hid : id < s.size) (hframe : ¬ s.InFrame id) :
    ¬ s'.InFrame id := by
  rintro ⟨F, hF, hfunction⟩
  have hlt : F < s.size := h.not_new (by simp [hfunction]) (by simp [hfunction])
  exact hframe ⟨F, (h.back id F hid hlt hF).1, (h.kind_eq hlt).symm.trans hfunction⟩

/-- A child that is found by its role has been found so before. -/
theorem child?_of (h : Thins s s') (hs : s.Sound) {role : Role} (hp : p < s.size)
    (hroles : (s.kind p).hasRoles) (hc : c < s.size) (hchild : s'.child? p role = some c) :
    s.child? p role = some c := by
  obtain ⟨hlink, hrole⟩ := h.back c p hc hp (h.ordered.parent?_of_mem (mem_of_child? hchild))
  refine hs.child?_of_mem hroles ((hs.linked p c).mpr hlink) ?_
  rw [← hrole, role?_of_child? hchild]

/-- A child that does not leave its parent is found by its role. -/
theorem child? (h : Thins s s') (hs : s.Linked) {role : Role} (hp : p < s.size)
    (hroles : (s.kind p).hasRoles) (hchild : s.child? p role = some c) (hfast : s.Fast c p) :
    s'.child? p role = some c := by
  obtain ⟨hlink, hrole⟩ := h.link c p (hs.parent?_of_mem (mem_of_child? hchild)) hfast
  refine h.evolves.sound.child?_of_mem (by rwa [h.kind_eq hp]) ((h.ordered.linked p c).mpr hlink) ?_
  rw [hrole, role?_of_child? hchild]

/-! ### One after the other -/

section

variable (h : Thins s s') (hs : s.Sound)

include h hs

/-- What does not leave its parent does not do so later on. -/
theorem fast (hlink : s.parent? c = some p) (hfast : s.Fast c p) : s'.Fast c p := by
  have hc := parent?_lt hlink
  have hp := hs.parent_lt hlink
  obtain ⟨-, hrole⟩ := h.link c p hlink hfast
  refine ⟨?_, ?_, ?_, ?_, fun G hG hchild hkind hidle => ?_⟩
  · rw [h.kind_eq hc]
    exact hfast.not_list
  · rw [h.kind_eq hc, h.isDeclaredFunction_eq hc]
    exact hfast.not_function
  · rw [h.kind_eq hp]
    exact hfast.not_listed
  · rw [h.kind_eq hp, hrole]
    exact hfast.not_initializer
  · have hGlt : G < s.size := h.not_new (by simp [hG]) (by simp [hG])
    rw [h.kind_eq hGlt] at hG
    rw [h.kind_eq hc] at hkind
    have htext := text_eq_of_text? (h.text?_eq_of_kind hc (by simp [hkind]))
    rw [htext, h.idle_iff] at hidle
    exact hfast.parameter G hG (h.child?_of hs hGlt (by rw [hG]; rfl) hp hchild) hkind hidle

/-- The pattern of a declaration stays. -/
theorem child?_names {d root : NodeId} (hkind : s.kind d = .declaration)
    (hchild : s.child? d .names = some root) : s'.child? d .names = some root := by
  have hmem := mem_of_child? hchild
  have hpattern : s.IsPattern root := by
    refine (hs.formed d).patterns root hmem ?_
    rw [Head.binds, show (s.head d).kind = .declaration from hkind]
    exact beq_iff_eq.mpr (role?_of_child? hchild)
  have hroot := hpattern.inPattern
  refine h.child? hs.toLinked (lt_of_mem_children hmem) (by rw [hkind]; rfl) hchild ?_
  refine ⟨?_, ?_, by simp [hkind], ?_, ?_⟩
  · intro hlist
    rw [hlist] at hroot
    cases hroot
  · rintro ⟨hfunction, -⟩
    rw [hfunction] at hroot
    cases hroot
  · rw [role?_of_child? hchild]
    simp
  · intro G hG hparams
    have hlist := hs.hosts_function hG (mem_of_child? hparams)
    simp [hkind] at hlist

theorem lasting_of (hc : s.Lasting c) (hlt : c < s.size) : s'.Lasting c := by
  cases hc with
  | performed hx => exact .performed (h.performed _ hx)
  | construct hkind => exact .construct (by rwa [h.kind_eq hlt])
  | holder hkind => exact .holder (by rwa [h.kind_eq hlt])
  | listed hkind hparent =>
      refine .listed ((h.kind_eq hlt).trans hkind) fun hlist => hparent ?_
      rw [parentKind?, Option.map_eq_some_iff] at hlist ⊢
      obtain ⟨p, hp, hpkind⟩ := hlist
      have hplt : p < s.size := h.not_new (by simp [hpkind]) (by simp [hpkind])
      exact ⟨p, (h.back c p hlt hplt hp).1, (h.kind_eq hplt).symm.trans hpkind⟩
  | patterned hkind hchild =>
      exact .patterned ((h.kind_eq hlt).trans hkind) (h.child?_names hs hkind hchild)
  | @needed G _ howner hinside hdeclares hneeded =>
      have hstays := h.lasting G c (howner.ownsBody hs) hinside
        (.needed howner hinside hdeclares hneeded)
      have htext : s'.text c = s.text c := by
        refine text_eq_of_text? ?_
        rcases hdeclares with hkind | ⟨-, hdeclared⟩
        · exact h.text?_eq_of_kind hlt (by simp [hkind])
        · exact h.text?_eq_of_declared hlt hdeclared
      refine .needed (h.owner_iff.mpr howner) hstays ?_ ?_
      · rwa [h.kind_eq hlt, h.isDeclaredFunction_eq hlt]
      · rwa [htext, h.idle_iff]
  | outermost hinside hkind hdeclared =>
      have hstays := h.lasting s.root c (.inr hs.root_kind) hinside
        (.outermost hinside hkind hdeclared)
      rw [← h.evolves.root_eq] at hstays
      exact .outermost hstays ((h.kind_eq hlt).trans hkind) (by rwa [h.isDeclaredFunction_eq hlt])

end

theorem inside_of_calm (h : Thins s s') (hcalm : ∀ name, ¬ s.Idle G name) (hG : s.Owner G)
    (hs : s.Linked) (hc : s.Inside G c) : s'.Inside G c := by
  induction hc with
  | child hc =>
      refine .child ?_
      rwa [h.calm G hG hcalm G (.inl rfl)]
  | @step d _ hd hfunction hc ih =>
      refine .step ih ?_ ?_
      · rwa [h.kind_eq (hd.lt hs)]
      · rwa [h.calm G hG hcalm d (.inr hd)]

theorem trans (h : Thins s s') (h' : Thins s' s'') (hs : s.Sound) :
    Thins s s'' where
  evolves := h.evolves.trans h'.evolves
  ordered := h'.ordered
  scope_eq id := (h'.scope_eq id).trans (h.scope_eq id)
  added id hid := by
    by_cases hlt : id < s'.size
    · rw [h'.kind_eq hlt]
      exact .inl ((h.added id hid).resolve_right (Nat.not_le_of_lt hlt))
    · exact h'.added id (Nat.le_of_not_lt hlt)
  head id hid := by
    have hid' := h.evolves.lt hid
    rcases h.head id hid with hbare | ⟨hnames, hidle, hbare⟩
    · rcases h'.head id hid' with hbare' | ⟨hnames', hidle', hbare'⟩
      · exact .inl (hbare'.trans hbare)
      · refine .inr ⟨(h.namesItself_iff hid).mp hnames', ?_, by rw [hbare', hbare]⟩
        rwa [h.idle_iff, text_eq_of_text? (Head.text?_of_bare hbare)] at hidle'
    · refine .inr ⟨hnames, hidle, ?_⟩
      rcases h'.head id hid' with hbare' | ⟨-, -, hbare'⟩
      · rw [hbare', hbare]
      · rw [hbare', hbare]
  row y hy hop hframe := by
    rw [h'.row y (h.evolves.lt hy) (by rwa [h.kind_eq hy]) (h.not_inFrame hy hframe)]
    exact h.row y hy hop hframe
  calm G hG hcalm y hy := by
    rw [h'.calm G (h.owner_iff.mpr hG) (fun name hidle => hcalm name (h.idle_iff.mp hidle)) y ?_]
    · exact h.calm G hG hcalm y hy
    · exact hy.imp_right (h.inside_of_calm hcalm hG hs.toLinked)
  link c p hlink hfast := by
    obtain ⟨hlink', hrole⟩ := h.link c p hlink hfast
    obtain ⟨hlink'', hrole'⟩ := h'.link c p hlink' (h.fast hs hlink hfast)
    exact ⟨hlink'', hrole'.trans hrole⟩
  back c p hc hp hlink := by
    obtain ⟨hlink', hrole'⟩ := h'.back c p (h.evolves.lt hc) (h.evolves.lt hp) hlink
    obtain ⟨hlink'', hrole⟩ := h.back c p hc hp hlink'
    exact ⟨hlink'', hrole'.trans hrole⟩
  origin c p hc hp hlink := by
    have hc' := h.evolves.lt hc
    by_cases hp' : p < s'.size
    · exact h.origin c p hc hp (h'.back c p hc' hp' hlink).1
    obtain ⟨hrole, hparent⟩ := h'.origin c p hc' (Nat.le_of_not_lt hp') hlink
    obtain ⟨d, hd, hkind⟩ := Option.map_eq_some_iff.mp hparent
    have hdlt : d < s.size := h.not_new (by simp [hkind]) (by simp [hkind])
    obtain ⟨hlink', hrole'⟩ := h.back c d hc hdlt hd
    refine ⟨hrole'.symm.trans hrole, ?_⟩
    rw [parentKind?, hlink', Option.map_some, ← h.kind_eq hdlt, hkind]
  performed x hx := h'.performed x (h.performed x hx)
  lasting y c hy hinside hc := by
    refine h'.lasting y c (h.ownsBody hy hinside.owner_lt) (h.lasting y c hy hinside hc) ?_
    exact h.lasting_of hs hc (hinside.lt hs.toLinked)
  order y hy howner := by
    have hsub := h.order y hy howner
    have hsub' := (h'.order y (h.evolves.lt hy) (h.ownsBody howner hy)).filter
      fun c => c < s.size && s.kind c != .varList
    -- Nodes that have been there at first have been there in between.
    have hold : (s''.bodyNodes y).filter (fun c => c < s.size && s.kind c != .varList) =
        ((s''.bodyNodes y).filter fun c => c < s'.size && s'.kind c != .varList).filter
          fun c => c < s.size && s.kind c != .varList := by
      rw [List.filter_filter]
      refine List.filter_congr fun c _ => ?_
      by_cases hc : c < s.size
      · simp [hc, h.evolves.lt hc, h.kind_eq hc]
      · simp [hc]
    rw [hold]
    exact hsub'.trans hsub

theorem refl (h : s.Sound) (hordered : s.Ordered) : Thins s s where
  evolves := .refl h
  ordered := hordered
  scope_eq _ := rfl
  added _ hid := .inr hid
  head _ _ := .inl rfl
  row _ _ _ _ := rfl
  calm _ _ _ _ _ := rfl
  link _ _ hlink _ := ⟨hlink, rfl⟩
  back _ _ _ _ hlink := ⟨hlink, rfl⟩
  origin _ _ _ hp hlink := absurd (h.parent_lt hlink) (Nat.not_lt_of_le hp)
  performed _ hx := hx
  lasting _ _ _ hinside _ := hinside
  order _ _ _ := List.filter_sublist

end Thins

/-! ### One removal -/

/-- An edit changes the children of one node, and perhaps those of lists and declarations below it.
Some nodes are cut off from their parents, and some nodes are gone then. -/
structure Removal (s s' : Store) (p : NodeId) (T cut gone : NodeId → Prop) : Prop where
  evolves : s.Evolves s'
  ordered : s'.Ordered
  scope_eq : ∀ id, s'.scope? id = s.scope? id
  added : ∀ id, s.size ≤ id → s'.kind id = .semicolon ∨ s'.size ≤ id
  head : ∀ id < s.size, (s'.head id).bare = (s.head id).bare
  row : ∀ y < s.size, y ≠ p → ¬ T y → s'.children y = s.children y
  below : ∀ y q, T y → s.parent? y = some q → q = p ∨ T q
  kind_below : ∀ y, T y → s.kind y = .varList ∨ s.kind y = .declaration
  not_function : s.kind p ≠ .function
  inFrame : (s.kind p).isOperation → s.InFrame p
  owner : ∃ G, s.Owner G ∧ (∃ name, s.Idle G name) ∧ ∀ y, y = p ∨ T y → y = G ∨ s.Inside G y
  kept : ∀ c q, s.parent? c = some q → ¬ cut c →
    s'.parent? c = some q ∧ s'.role? c = s.role? c
  back : ∀ c q, c < s.size → q < s.size → s'.parent? c = some q →
    s.parent? c = some q ∧ ¬ cut c
  origin : ∀ c q, c < s.size → s.size ≤ q → s'.parent? c = some q → s.hasEffect c
  cut_of : ∀ c, cut c → s.Droppable c ∨ s.hasEffect c ∧ s'.isAlone c
  effect : ∀ x d, s.hasEffect x → ¬ cut x → s.parent? x = some d → ¬ cut d
  gone_of : ∀ c, gone c → s.Droppable c ∨ s.Effectless c
  gone_up : ∀ c q, gone c → s'.parent? c = some q → gone q ∧ s.kind q ≠ .function
  place : ∀ K : NodeId → Bool, (∀ c, K c → c < s.size ∧ ¬ gone c ∧ s.kind c ≠ .varList) →
    (s'.bodyNodes p).filter K = (s.bodyNodes p).filter K

theorem Ordered.admits (h : s.Ordered) (hlink : s.parent? c = some p) :
    (s.head p).Admits (s.head c) := by
  obtain ⟨C, hC⟩ := h.arranged
  exact hC.admits hlink

theorem parentKind?_of_parent (hlink : s.parent? c = some p) : s.parentKind? c = some (s.kind p) := by
  rw [parentKind?, hlink]
  rfl

theorem parentKind?_parameter {params : NodeId} (h : s.Sound) (hG : s.kind G = .function)
    (hchild : s.child? G .params = some params) (hc : c ∈ s.children params) :
    s.parentKind? c = some .list := by
  rw [parentKind?_of_parent (h.parent?_of_mem hc), h.kind_params hG hchild]

/-- Only as a parameter can a value be taken out. -/
theorem not_droppable_of_isExpression (h : s.Sound) (hc : (s.head c).isExpression)
    (hparent : s.parentKind? c ≠ some .list) : ¬ s.Droppable c := by
  intro hdrop
  rw [Head.isExpression, show (s.head c).kind = s.kind c from rfl] at hc
  cases hdrop with
  | parameter hG hchild hmem => exact hparent (parentKind?_parameter h hG hchild hmem)
  | list hkind => simp [hkind, Kind.isStatement] at hc
  | declaration _ _ hkind => simp [hkind, Kind.isStatement] at hc
  | function _ _ hkind hdeclared =>
      simp only [hkind, Kind.isStatement, Bool.not_true, Bool.false_or, beq_self_eq_true,
        Bool.true_and, beq_iff_eq] at hc
      rw [Tree.isDeclaredFunction, hc] at hdeclared
      cases hdeclared

theorem hasEffect_iff : s.hasEffect x ↔ s.role? x = some .initializer ∧
    s.parentKind? x = some .declaration ∧ (s.parent? x).bind s.parentKind? = some .varList ∧
      (s.view x).isEffectFree = false := by
  simp only [hasEffect, Bool.and_eq_true, beq_iff_eq, Bool.not_eq_true', and_assoc]

theorem isAlone_iff : s.isAlone x ↔
    s.role? x = some .expression ∧ s.parentKind? x = some .semicolon := by
  simp only [isAlone, Bool.and_eq_true, beq_iff_eq]

/-- What a declaration starts with, and an expression of its own, cannot be taken out. -/
theorem not_droppable_of_performed (h : s.Sound) (hordered : s.Ordered)
    (hx : s.hasEffect x ∨ s.isAlone x) : ¬ s.Droppable x := by
  have hcase : ∃ p role, s.parent? x = some p ∧ s.role? x = some role ∧ role.isExpression ∧
      s.kind p ≠ .list := by
    rw [hasEffect_iff, isAlone_iff] at hx
    rcases hx with ⟨hrole, hparent, -⟩ | ⟨hrole, hparent⟩
    all_goals
      obtain ⟨p, hp, hkind⟩ := Option.map_eq_some_iff.mp hparent
      exact ⟨p, _, hp, hrole, rfl, by simp [hkind]⟩
  obtain ⟨p, role, hp, hrole, hexpression, hlist⟩ := hcase
  refine not_droppable_of_isExpression h ((hordered.admits hp).role role hrole hexpression) ?_
  rw [parentKind?_of_parent hp]
  simpa using hlist

theorem Effectless.kind_eq (hc : s.Effectless c) :
    s.kind c = .function ∨ (s.kind c).isStatement = false := by
  rw [← kind_view]
  exact Tree.isStatement_of_isEffectFree hc.effectFree

/-- What is not needed is not among what stays. -/
theorem Lasting.not_dropped (h : s.Sound) (hs : s.Ordered) (hc : s.Lasting c) :
    ¬ (s.Droppable c ∨ s.Effectless c) := by
  have hstatement : ∀ {kind : Kind}, s.kind c = kind → kind ≠ .function → kind.isStatement →
      ¬ s.Effectless c := by
    intro kind hkind hfunction hstatement hfree
    rcases hfree.kind_eq with hcase | hcase
    · exact hfunction (hkind ▸ hcase)
    · rw [hkind, hstatement] at hcase
      cases hcase
  have hdeclared : Tree.isDeclaredFunction (s.head c) → s.kind c = .function →
      ¬ s.Effectless c := by
    intro hdeclared hkind hfree
    have hexpression := hfree.isExpression
    rw [Head.isExpression, show (s.head c).kind = .function from hkind] at hexpression
    simp only [Kind.isStatement, Bool.not_true, Bool.false_or, beq_self_eq_true, Bool.true_and,
      beq_iff_eq] at hexpression
    rw [Tree.isDeclaredFunction, hexpression] at hdeclared
    cases hdeclared
  rintro (hdrop | hfree)
  · cases hc with
    | performed hx => exact not_droppable_of_performed h hs hx hdrop
    | construct hkind => rcases hkind with hkind | hkind <;> cases hdrop <;> simp_all
    | holder hkind => cases hdrop <;> simp_all [Kind.isStatementList]
    | listed hkind hparent => cases hdrop <;> simp_all
    | patterned hkind hchild => cases hdrop <;> simp_all
    | @needed G _ howner hinside hdeclares hneeded =>
        cases hdrop with
        | parameter _ _ _ hkind => simp [hkind] at hdeclares
        | list hkind => simp [hkind] at hdeclares
        | declaration howner' hinside' _ _ _ hidle =>
            exact hneeded (hinside'.owner_eq hs.toForest howner' howner hinside ▸ hidle)
        | function howner' hinside' _ _ hidle =>
            exact hneeded (hinside'.owner_eq hs.toForest (.inr howner') howner hinside ▸ hidle)
    | outermost hinside hkind hdecl =>
        cases hdrop with
        | parameter _ _ _ hkind' => simp [hkind] at hkind'
        | list hkind' => simp [hkind] at hkind'
        | declaration _ _ hkind' => simp [hkind] at hkind'
        | function howner hinside' =>
            have heq := hinside'.owner_eq hs.toForest (.inr howner) (.inl rfl) hinside
            simp [heq, h.root_kind] at howner
  · cases hc with
    | performed hx =>
        rw [hasEffect_iff, isAlone_iff] at hx
        rcases hx with ⟨-, -, -, heffect⟩ | ⟨-, hparent⟩
        · rw [hfree.effectFree] at heffect
          cases heffect
        · have := hfree.parentKind
          simp [hparent] at this
    | construct hkind =>
        rcases hkind with hkind | hkind <;> exact hstatement hkind (by simp) rfl hfree
    | holder hkind =>
        refine hstatement rfl (fun hfunction => ?_) ?_ hfree
        · rw [hfunction] at hkind
          cases hkind
        · revert hkind
          cases s.kind c <;> simp [Kind.isStatementList, Kind.isStatement]
    | listed hkind => exact hstatement hkind (by simp) rfl hfree
    | patterned hkind => exact hstatement hkind (by simp) rfl hfree
    | needed _ _ hdeclares =>
        rcases hdeclares with hkind | ⟨hkind, hdecl⟩
        · exact hstatement hkind (by simp) rfl hfree
        · exact hdeclared hdecl hkind hfree
    | outermost _ hkind hdecl => exact hdeclared hdecl hkind hfree

namespace Removal

variable {T cut gone : NodeId → Prop} (h : Removal s s' p T cut gone)

include h

theorem kind_eq (hid : id < s.size) : s'.kind id = s.kind id := h.evolves.kind_eq id hid

theorem kind_of_below (hy : y = p ∨ T y) : s.kind y ≠ .function := by
  rcases hy with rfl | hy
  · exact h.not_function
  · rcases h.kind_below y hy with hkind | hkind <;> simp [hkind]

theorem filter_bodyNodes_eq (hs : s.Forest) {K : NodeId → Bool}
    (hK : ∀ c, K c → c < s.size ∧ ¬ gone c ∧ s.kind c ≠ .varList) (hlt : y < s.size)
    (hy : s.OwnsBody y) : (s'.bodyNodes y).filter K = (s.bodyNodes y).filter K := by
  refine hs.filter_bodyNodes_eq h.ordered.toForest (fun x hx => h.kind_eq hx) h.row h.below
    (h.place K hK) hlt fun hT => ?_
  rcases h.kind_below y hT with hkind | hkind <;> rcases hy with hy | hy <;> simp [hkind] at hy

theorem inside_iff (hs : s.Forest) (hy : s.OwnsBody y) (hylt : y < s.size) (hc : c < s.size)
    (hgone : ¬ gone c) (hkind : s.kind c ≠ .varList) : s'.Inside y c ↔ s.Inside y c := by
  have heq := h.filter_bodyNodes_eq hs (K := fun x => x == c) (y := y) ?_ hylt hy
  · have hmem : c ∈ (s'.bodyNodes y).filter (· == c) ↔ c ∈ (s.bodyNodes y).filter (· == c) := by
      rw [heq]
    simpa only [List.mem_filter, beq_self_eq_true, and_true, h.ordered.toForest.mem_bodyNodes,
      hs.mem_bodyNodes] using hmem
  · intro x hx
    obtain rfl := eq_of_beq hx
    exact ⟨hc, hgone, hkind⟩

/-- What is gone is in no body. -/
theorem not_inside_of_gone (hy : s.OwnsBody y) (hc : gone c) : ¬ s'.Inside y c := by
  intro hinside
  induction hinside with
  | child hmem =>
      obtain ⟨hgone, hkind⟩ := h.gone_up _ _ hc (h.ordered.parent?_of_mem hmem)
      have hscript := hy.resolve_left hkind
      rcases h.gone_of _ hgone with hdrop | hfree
      · cases hdrop <;> simp_all
      · rcases hfree.kind_eq with hcase | hcase <;> simp [hscript, Kind.isStatement] at hcase
  | step _ _ hmem ih => exact ih (h.gone_up _ _ hc (h.ordered.parent?_of_mem hmem)).1

theorem not_cut {q : NodeId} (hs : s.Sound) (hlink : s.parent? c = some q) (hfast : s.Fast c q) :
    ¬ cut c := by
  intro hcut
  rcases h.cut_of c hcut with hdrop | ⟨heffect, -⟩
  · cases hdrop with
    | parameter hG hchild hmem hkind hidle =>
        obtain rfl := Option.some_inj.mp ((hs.parent?_of_mem hmem).symm.trans hlink)
        exact hfast.parameter _ hG hchild hkind hidle
    | list hkind => exact hfast.not_list hkind
    | declaration _ _ _ hparent =>
        rw [parentKind?_of_parent hlink, Option.some_inj] at hparent
        exact hfast.not_listed hparent
    | function _ _ hkind hdeclared => exact hfast.not_function ⟨hkind, hdeclared⟩
  · obtain ⟨hrole, hparent, -⟩ := hasEffect_iff.mp heffect
    rw [parentKind?_of_parent hlink, Option.some_inj] at hparent
    exact hfast.not_initializer ⟨hparent, hrole⟩

theorem outline_eq (hs : s.Forest) (hlt : x < s.size) (hx : ¬ s.InFrame x) :
    (s'.view x).outline = (s.view x).outline := by
  refine hs.outline_view_eq h.ordered.toForest (fun y hy => h.kind_eq hy) (fun y hy => ?_)
    (fun y hy _ => h.head y hy) (fun y hy hop hframe => ?_) hlt hx
  · exact Head.span_of_bare (h.head y hy)
  · refine h.row y hy ?_ fun hT => ?_
    · rintro rfl
      exact hframe (h.inFrame hop)
    · rcases h.kind_below y hT with hkind | hkind <;> rw [hkind] at hop <;> cases hop

/-- What has an effect keeps it, where it is or as a statement. -/
theorem performed (hs : s.Sound) (hordered : s.Ordered) (hx : s.hasEffect x ∨ s.isAlone x) :
    s'.hasEffect x ∨ s'.isAlone x := by
  have hdrop := not_droppable_of_performed hs hordered hx
  have hparentKind : ∀ {c q}, s.parent? c = some q → ¬ cut c →
      s'.parentKind? c = s.parentKind? c := by
    intro c q hq hcut
    rw [parentKind?_of_parent (h.kept c q hq hcut).1, parentKind?_of_parent hq,
      h.kind_eq (hs.parent_lt hq)]
  rcases hx with heffect | halone
  · by_cases hcut : cut x
    · exact .inr ((h.cut_of x hcut).resolve_left hdrop).2
    · obtain ⟨hrole, hparent, hlist, hfree⟩ := hasEffect_iff.mp heffect
      obtain ⟨d, hd, hkind⟩ := Option.map_eq_some_iff.mp hparent
      obtain ⟨hd', hrole'⟩ := h.kept x d hd hcut
      rw [hd, Option.bind_some] at hlist
      obtain ⟨l, hl, -⟩ := Option.map_eq_some_iff.mp hlist
      refine .inl (hasEffect_iff.mpr ⟨hrole'.trans hrole, ?_, ?_, ?_⟩)
      · rw [hparentKind hd hcut, hparent]
      · rw [hd', Option.bind_some, hparentKind hl (h.effect x d heffect hcut hd), hlist]
      · have houtline := h.outline_eq hordered.toForest (parent?_lt hd) <|
          not_inFrame_of_mem hs.toLinked ((hs.linked d x).mpr hd) (by simp [hkind])
        rw [← Tree.isEffectFree_outline, houtline, Tree.isEffectFree_outline, hfree]
  · obtain ⟨hrole, hparent⟩ := isAlone_iff.mp halone
    obtain ⟨q, hq, -⟩ := Option.map_eq_some_iff.mp hparent
    have hcut : ¬ cut x := by
      intro hcut
      have hrole' := (hasEffect_iff.mp ((h.cut_of x hcut).resolve_left hdrop).1).1
      rw [hrole] at hrole'
      cases hrole'
    refine .inr (isAlone_iff.mpr ⟨(h.kept x q hq hcut).2.trans hrole, ?_⟩)
    rw [hparentKind hq hcut, hparent]

/-- A store has lost at most what is not needed after a removal. -/
theorem thins (hs : s.Sound) (hordered : s.Ordered) : Thins s s' where
  evolves := h.evolves
  ordered := h.ordered
  scope_eq := h.scope_eq
  added := h.added
  head id hid := .inl (h.head id hid)
  row y hy hop hframe := by
    refine h.row y hy ?_ fun hT => ?_
    · rintro rfl
      exact hframe (h.inFrame hop)
    · rcases h.kind_below y hT with hkind | hkind <;> rw [hkind] at hop <;> cases hop
  calm H hH hcalm y hy := by
    obtain ⟨G, hG, ⟨name, hidle⟩, howner⟩ := h.owner
    have hlt : y < s.size := hy.elim (fun heq => heq ▸ hH.lt hs.toLinked) (Inside.lt hs.toLinked)
    have hne : G ≠ H := by
      rintro rfl
      exact hcalm name hidle
    -- The children that change are in a body with an idle name.
    have houtside : ¬ (y = p ∨ T y) := by
      intro hplace
      have hfunction := h.kind_of_below hplace
      rcases howner y hplace with rfl | hG'
      · rcases hy with rfl | hy
        · exact hne rfl
        · obtain rfl := hG.resolve_right hfunction
          exact not_inside_root hs.toLinked hy
      · rcases hy with rfl | hy
        · obtain rfl := hH.resolve_right hfunction
          exact not_inside_root hs.toLinked hG'
        · exact hne (hG'.owner_eq hordered.toForest hG hH hy)
    rw [not_or] at houtside
    exact h.row y hlt houtside.1 houtside.2
  link c q hlink hfast := h.kept c q hlink (h.not_cut hs hlink hfast)
  back c q hc hq hlink := by
    obtain ⟨hlink', hcut⟩ := h.back c q hc hq hlink
    exact ⟨hlink', (h.kept c q hlink' hcut).2⟩
  origin c q hc hq hlink := by
    obtain ⟨hrole, hparent, -⟩ := hasEffect_iff.mp (h.origin c q hc hq hlink)
    exact ⟨hrole, hparent⟩
  performed x hx := h.performed hs hordered hx
  lasting y c hy hinside hc := by
    have hlt := hinside.lt hs.toLinked
    have hnot := hc.not_dropped hs hordered
    refine (h.inside_iff hordered.toForest hy hinside.owner_lt hlt ?_ ?_).mpr hinside
    · exact fun hgone => hnot (h.gone_of c hgone)
    · exact fun hkind => hnot (.inl (.list hkind))
  order y hy howner := by
    classical
    have hall : (s'.bodyNodes y).filter (fun c => c < s.size && s.kind c != .varList) =
        (s'.bodyNodes y).filter fun c => c < s.size && s.kind c != .varList && !decide (gone c) := by
      refine List.filter_congr fun c hc => ?_
      have hgone : ¬ gone c := fun hgone =>
        h.not_inside_of_gone howner hgone (h.ordered.toForest.mem_bodyNodes.mp hc)
      simp [hgone]
    rw [hall, h.filter_bodyNodes_eq hordered.toForest ?_ hy howner]
    · exact List.filter_sublist
    · intro c hc
      simp only [Bool.and_eq_true, decide_eq_true_eq, bne_iff_ne, Bool.not_eq_true',
        decide_eq_false_iff_not] at hc
      exact ⟨hc.1.1, hc.2, hc.1.2⟩

end Removal

end Store

end ScriptMin
