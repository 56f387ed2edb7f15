import ScriptMin.Proofs.Store.Lines
import ScriptMin.Proofs.Tree.Jumps

/-!
Plans of stores. A plan gives every node a reach, such that a node has at most the reach that its
parent leaves to it and is allowed there. Whether a plan still holds after an edit depends on the
links that are new alone, and what an edit leaves detached keeps the reach it had. Main statement:
in a store with a plan, the tree at the root fits what is around it.
-/

namespace ScriptMin

/-- Kind of a node, and of functions how they were introduced. -/
def Head.sort (h : Head) : Kind × Option FunctionForm := (h.kind, h.form)

theorem Head.isExpression_of_sort {h h' : Head} (hsort : h'.sort = h.sort) :
    h'.isExpression = h.isExpression := by
  rw [Head.sort, Head.sort, Prod.mk.injEq] at hsort
  rw [isExpression, isExpression, hsort.1, hsort.2]

/-- Whether nodes of the kind are held by parents that hold nothing else in their place. -/
def Kind.isFixed : Kind → Bool
  | .script | .list | .declaration => true
  | _ => false

namespace Head.Admits

variable {p c old new : Head}

/-- Another node can take the place of a child, an expression that of an expression. -/
theorem replaced (h : p.Admits old) (hfixed : old.kind.isFixed = false)
    (hexpression : old.isExpression → new.isExpression) :
    p.Admits { new with role := old.role } where
  operand hp := hexpression (h.operand hp)
  role role hrole hexp := hexpression (h.role role hrole hexp)
  declaration hp := by rw [h.declaration hp] at hfixed; cases hfixed
  function hp := by
    rcases h.function hp with hkind | hkind
    all_goals
      rw [hkind] at hfixed
      cases hfixed
  body hp hrole := by rw [h.body hp hrole] at hfixed; cases hfixed
  jump := h.jump

/-- A child may lose its role. -/
theorem dropRole (h : p.Admits c) : p.Admits { c with role := none } where
  operand := h.operand
  role := nofun
  declaration := h.declaration
  function := h.function
  body := nofun
  jump := h.jump

/-- An expression may get any role but that of a body. -/
theorem setRole (h : p.Admits c) {role : Role} (hrole : role.isExpression → c.isExpression)
    (hbody : role ≠ .body) : p.Admits { c with role := some role } where
  operand := h.operand
  role := by rintro _ ⟨⟩; exact hrole
  declaration := h.declaration
  function := h.function
  body _ hrole := absurd (Option.some_inj.mp hrole) hbody
  jump := h.jump

end Head.Admits

namespace Store

variable {s s' s'' : Store} {id parent child old new source target : NodeId}

abbrev Plan := NodeId → Reach

/-- The nodes of a store have at most the reaches that their parents leave to them, and are
allowed there. -/
structure Placed (C : Plan) (s : Store) : Prop where
  parent_lt : ∀ {c p}, s.parent? c = some p → p < s.size
  admits : ∀ {c p}, s.parent? c = some p → (s.head p).Admits (s.head c)
  around : ∀ {c p}, s.parent? c = some p → C c ≤ (C p).around (s.head p) (s.head c)
  fits : ∀ id < s.size, (s.head id).FitsIn (C id)

theorem Placed.below {C : Plan} (h : Placed C s) {c p : NodeId} (hp : s.parent? c = some p) :
    C c ≤ (C p).inside (s.head p) :=
  (h.around hp).trans Reach.around_le

/-- What stands for a value has the reach of one. -/
theorem Placed.valued {C : Plan} (h : Placed C s) {c p : NodeId} (hp : s.parent? c = some p)
    (hvalues : (s.head p).values (s.head c)) : (C c).valued :=
  Reach.valued_of_le_around (h.around hp) hvalues

/-- Statements do not stand in values. -/
theorem Placed.not_valued {C : Plan} (h : Placed C s) (hlt : id < s.size)
    (hkind : (s.kind id).isUnvalued) : (C id).valued = false :=
  (h.fits id hlt).unvalued hkind

/-- A node can be the root: it is a script and asks for nothing around it. -/
structure Topmost (C : Plan) (s : Store) (id : NodeId) : Prop where
  lt : id < s.size
  le : C id ≤ {}
  kind : s.kind id = .script

/-- Nothing is around the root. -/
structure Planned (C : Plan) (s : Store) : Prop extends Placed C s where
  root : Topmost C s s.root

/-- A store has a plan that agrees with that of an earlier one, whose nodes are what they were. -/
structure Extends (C : Plan) (s : Store) (C' : Plan) (s' : Store) : Prop where
  planned : Planned C' s'
  size_le : s.size ≤ s'.size
  plan_eq : ∀ id < s.size, C' id = C id
  sort_eq : ∀ id < s.size, (s'.head id).sort = (s.head id).sort

variable {C C' C'' : Plan}

namespace Extends

theorem refl (h : Planned C s) : Extends C s C s :=
  ⟨h, Nat.le_refl _, fun _ _ => rfl, fun _ _ => rfl⟩

theorem trans (h : Extends C s C' s') (h' : Extends C' s' C'' s'') : Extends C s C'' s'' where
  planned := h'.planned
  size_le := h.size_le.trans h'.size_le
  plan_eq id hid := (h'.plan_eq id (hid.trans_le h.size_le)).trans (h.plan_eq id hid)
  sort_eq id hid := (h'.sort_eq id (hid.trans_le h.size_le)).trans (h.sort_eq id hid)

theorem lt (h : Extends C s C' s') (hid : id < s.size) : id < s'.size := hid.trans_le h.size_le

theorem kind_eq (h : Extends C s C' s') (hid : id < s.size) : s'.kind id = s.kind id :=
  congrArg Prod.fst (h.sort_eq id hid)

theorem isExpression_eq (h : Extends C s C' s') (hid : id < s.size) :
    (s'.head id).isExpression = (s.head id).isExpression :=
  Head.isExpression_of_sort (h.sort_eq id hid)

end Extends

namespace Planned

variable (h : Planned C s)
include h

/-! ### Heads -/

/-- A node stays allowed if it stays of its sort and, as far as jumps refer to it, keeps its
name. -/
theorem modifyHead {f : Head → Head} (hsort : (f (s.head id)).sort = (s.head id).sort)
    (hpayload : (s.kind id).isBound → (f (s.head id)).payload = (s.head id).payload)
    (hadmits : ∀ p, s.parent? id = some p → (s.head p).Admits (f (s.head id)))
    (hvalued : ∀ p, s.parent? id = some p → (s.head p).values (f (s.head id)) → (C id).valued) :
    Extends C s C (s.modifyHead id f) := by
  have hkind : ∀ x, ((s.modifyHead id f).head x).kind = (s.head x).kind := by
    intro x
    rw [head_modifyHead]
    split
    case isTrue heq => rw [heq.1]; exact congrArg Prod.fst hsort
    case isFalse => rfl
  have hbound : ∀ x, (s.head x).kind.isBound →
      ((s.modifyHead id f).head x).payload = (s.head x).payload := by
    intro x hx
    rw [head_modifyHead]
    split
    case isTrue heq => rw [heq.1] at hx ⊢; exact hpayload hx
    case isFalse => rfl
  refine ⟨⟨⟨?_, ?_, ?_, ?_⟩, ?_⟩, (size_modifyHead f).ge, fun _ _ => rfl, fun x _ => ?_⟩
  · intro c p hp
    rw [parent?_modifyHead] at hp
    rw [size_modifyHead]
    exact h.parent_lt hp
  · intro c p hp
    rw [parent?_modifyHead] at hp
    refine Head.Admits.congr (p := s.head p) ?_ (hkind p)
    rw [head_modifyHead]
    split
    case isTrue heq => exact heq.1 ▸ hadmits p (heq.1 ▸ hp)
    case isFalse => exact h.admits hp
  · intro c p hp
    rw [parent?_modifyHead] at hp
    have hinside : C c ≤ (C p).inside ((s.modifyHead id f).head p) := by
      rw [Reach.inside_congr (hkind p) fun hlabel => ?_]
      · exact h.below hp
      · rw [Head.text, Head.text, Head.text?, Head.text?, hbound p (by rw [hlabel]; rfl)]
    refine Reach.le_around hinside fun hvalues => ?_
    rw [Head.values_congr (hkind p) rfl, head_modifyHead] at hvalues
    split at hvalues
    case isTrue heq => exact heq.1 ▸ hvalued p (heq.1 ▸ hp) (heq.1 ▸ hvalues)
    case isFalse => exact h.valued hp hvalues
  · exact fun x hx => (h.fits x (by rwa [size_modifyHead] at hx)).congr (hkind x) (hbound x)
  · exact ⟨h.root.lt.trans_eq (size_modifyHead f).symm, h.root.le, (hkind _).trans h.root.kind⟩
  · rw [head_modifyHead]
    split
    case isTrue heq => rw [heq.1]; exact hsort
    case isFalse => rfl

theorem dropRole : Extends C s C (s.setRole id none) := by
  refine h.modifyHead rfl (fun _ => rfl) (fun _ hp => (h.admits hp).dropRole) fun p hp hvalues => ?_
  refine h.valued hp (Head.values_of_isOperation ?_)
  simpa [Head.values] using hvalues

theorem setRole {role : Role} (hrole : role.isExpression → (s.head id).isExpression)
    (hvalued : role.isExpression → (C id).valued) (hbody : role ≠ .body) :
    Extends C s C (s.setRole id (some role)) := by
  refine h.modifyHead rfl (fun _ => rfl) (fun _ hp => (h.admits hp).setRole hrole hbody)
    fun p hp hvalues => ?_
  simp only [Head.values, Option.any_some, Bool.or_eq_true] at hvalues
  rcases hvalues with hoperation | hexpression
  · exact h.valued hp (Head.values_of_isOperation hoperation)
  · exact hvalued hexpression

theorem setParenthesized (on : Bool) : Extends C s C (s.setParenthesized id on) :=
  h.modifyHead rfl (fun _ => rfl) (fun _ hp =>
    have := h.admits hp
    ⟨this.operand, this.role, this.declaration, this.function, this.body, this.jump⟩)
    fun _ hp => h.valued hp

/-- What a node carries does not matter unless jumps refer to it. -/
theorem setPayload (payload : Payload) (hbound : (s.kind id).isBound = false) :
    Extends C s C (s.setPayload id payload) := by
  refine h.modifyHead rfl (fun hkind => ?_) (fun _ hp => ?_) fun _ hp => h.valued hp
  · rw [hbound] at hkind
    cases hkind
  · have := h.admits hp
    exact ⟨this.operand, this.role, this.declaration, this.function, this.body, this.jump⟩

/-! ### Moving nodes -/

/-- A plan holds on if nodes stay what they are and every new link is in order. -/
theorem of_links (hsize : s'.size = s.size) (hroot : Topmost C s s'.root)
    (hhead : ∀ id, s'.head id = s.head id)
    (hlinks : ∀ c p, s'.parent? c = some p → s.parent? c = some p ∨
      p < s.size ∧ (s.head p).Admits (s.head c) ∧ C c ≤ (C p).around (s.head p) (s.head c)) :
    Extends C s C s' := by
  refine ⟨⟨⟨?_, ?_, ?_, ?_⟩, ?_⟩, hsize.ge, fun _ _ => rfl, fun id _ => by rw [hhead]⟩
  · intro c p hp
    rw [hsize]
    rcases hlinks c p hp with hold | hnew
    · exact h.parent_lt hold
    · exact hnew.1
  · intro c p hp
    rw [hhead, hhead]
    rcases hlinks c p hp with hold | hnew
    · exact h.admits hold
    · exact hnew.2.1
  · intro c p hp
    rw [hhead, hhead]
    rcases hlinks c p hp with hold | hnew
    · exact h.around hold
    · exact hnew.2.2
  · intro id hid
    rw [hhead]
    exact h.fits id (hsize ▸ hid)
  · exact ⟨hroot.lt.trans_eq hsize.symm, hroot.le, by rw [kind, hhead]; exact hroot.kind⟩

theorem detach : Extends C s C (s.detach id) := by
  refine h.of_links size_detach ?_ (fun _ => head_detach) fun c p hp => ?_
  · rw [Store.root, chosenRoot_detach]
    exact h.root
  · rw [parent?_detach] at hp
    split at hp
    · cases hp
    · exact .inl hp

theorem remove : Extends C s C (s.remove id) := h.detach.trans h.detach.planned.dropRole

/-- A node becomes a child of one that admits it and leaves it its reach. -/
theorem attach {f : List NodeId → List NodeId} (hlt : parent < s.size)
    (hadmits : (s.head parent).Admits (s.head child))
    (hle : C child ≤ (C parent).around (s.head parent) (s.head child)) :
    Extends C s C (s.attach parent f child) := by
  refine h.of_links size_attach ?_ (fun _ => head_attach) fun c p hp => ?_
  · rw [Store.root, chosenRoot_attach]
    exact h.root
  · rw [Store.attach, parent?_mapChildren, parent?_setParent, parent?_detach] at hp
    split at hp
    case isTrue heq =>
        obtain rfl := Option.some_inj.mp hp
        exact .inr ⟨hlt, heq.1 ▸ hadmits, heq.1 ▸ hle⟩
    case isFalse =>
        split at hp
        · cases hp
        · exact .inl hp

theorem append (hlt : parent < s.size) (hadmits : (s.head parent).Admits (s.head child))
    (hle : C child ≤ (C parent).around (s.head parent) (s.head child)) :
    Extends C s C (s.append parent child) := by
  rw [append_eq]
  exact h.attach hlt hadmits hle

theorem insert (index : Nat) (hlt : parent < s.size)
    (hadmits : (s.head parent).Admits (s.head child))
    (hle : C child ≤ (C parent).around (s.head parent) (s.head child)) :
    Extends C s C (s.insert parent index child) := by
  rw [insert_eq]
  exact h.attach hlt hadmits hle

/-- A node is put in the place of one with at least its reach. -/
theorem replace (hlt : new < s.size) (hle : C new ≤ C old) (hscript : s.kind old ≠ .script)
    (hadmits : ∀ p, s.parent? old = some p →
      (s.head p).Admits { s.head new with role := s.role? old }) :
    Extends C s C (s.replace old new) := by
  by_cases hne : old = new
  · rw [Store.replace, if_pos hne]
    exact .refl h
  rw [replace_eq hne]
  -- The node is detached first, so that no link cares for its role.
  have hmoved : Extends C s C ((s.detach new).setRole new (s.role? old)) := by
    have hnone : (s.detach new).parent? new = none := by rw [parent?_detach, if_pos rfl]
    refine h.detach.trans (h.detach.planned.modifyHead rfl (fun _ => rfl) ?_ ?_)
    all_goals
      intro p hp
      rw [hnone] at hp
      cases hp
  have hnew : ((s.detach new).setRole new (s.role? old)).head new =
      { s.head new with role := s.role? old } := by
    rw [Store.setRole, head_modifyHead, size_detach, if_pos ⟨rfl, hlt⟩, head_detach]
  dsimp only
  split
  case h_1 p hp =>
      refine hmoved.trans
        (hmoved.planned.of_links size_swap ?_ (fun _ => head_swap) fun c q hq => ?_)
      · rw [Store.root, chosenRoot_swap]
        exact hmoved.planned.root
      · rw [swap, parent?_setParent, parent?_mapChildren, parent?_setParent, size_mapChildren,
          size_setParent] at hq
        split at hq
        case isTrue heq =>
            obtain rfl := Option.some_inj.mp hq
            obtain ⟨rfl, -⟩ := heq
            have hparent : s.parent? old = some p := by
              rwa [parent?_setRole, parent?_detach, if_neg hne] at hp
            have hkind := hmoved.kind_eq (h.parent_lt hparent)
            refine .inr ⟨hmoved.planned.parent_lt hp, ?_, ?_⟩
            · rw [hnew]
              exact (hadmits p hparent).congr hkind
            · refine Reach.le_around (hle.trans (hmoved.planned.below hp)) fun hvalues => ?_
              rw [hnew] at hvalues
              exact hle.valued (h.valued hparent ((Head.values_congr hkind rfl).symm.trans hvalues))
        case isFalse =>
            split at hq
            · cases hq
            · exact .inl hq
  case h_2 =>
      rw [if_neg]
      · exact hmoved
      · intro hroot
        have hold : s.root = old := by
          rw [chosenRoot_setRole, chosenRoot_detach] at hroot
          rw [Store.root, hroot]
          rfl
        exact hscript (hold ▸ h.root.kind)

/-- A node is put in the place of one that can be any node. -/
theorem replace_of_not_isFixed (hlt : new < s.size) (hle : C new ≤ C old)
    (hfixed : (s.kind old).isFixed = false)
    (hexpression : (s.head old).isExpression → (s.head new).isExpression) :
    Extends C s C (s.replace old new) :=
  h.replace hlt hle (fun hscript => by rw [hscript] at hfixed; cases hfixed)
    fun _ hp => (h.admits hp).replaced hfixed hexpression

/-- The children of a node move to one of the same kind with the same reach. -/
theorem moveChildren (hs : s.Linked) (hlt : target < s.size)
    (hkind : s.kind target = s.kind source) (hlabel : s.kind source ≠ .label)
    (hle : C source ≤ C target) : Extends C s C (s.moveChildren source target) := by
  refine h.of_links size_moveChildren ?_ (fun _ => head_moveChildren) fun c p hp => ?_
  · rw [Store.root, chosenRoot_moveChildren]
    exact h.root
  · rw [parent?_moveChildren fun c hc => hs.child_lt hc] at hp
    split at hp
    case isTrue hc =>
        obtain rfl := Option.some_inj.mp hp
        have hparent := hs.parent?_of_mem hc
        refine .inr ⟨hlt, (h.admits hparent).congr hkind, ?_⟩
        rw [Reach.around_congr hkind (fun h => absurd h hlabel) rfl]
        exact (h.around hparent).trans (Reach.around_mono _ _ hle)
    case isFalse => exact .inl hp

theorem scan : Extends C s C (s.scan id) := by
  rw [scan_eq]
  refine List.foldlRecOn _ _ (.refl h) fun s' hs _ _ => hs.trans ?_
  exact hs.planned.of_links (size_setScope _) hs.planned.root (fun _ => head_setScope _)
    fun _ _ hp => .inl (by rwa [parent?_setScope] at hp)

/-! ### Adding nodes -/

/-- A new node gets any reach in which it is allowed. -/
theorem add {head : Head} {X : Reach} (hfits : head.FitsIn X) :
    Extends C s (Function.update C s.size X) (s.add head).2 := by
  have hold : ∀ id, id < s.size → Function.update C s.size X id = C id := fun id hid =>
    Function.update_of_ne (Nat.ne_of_lt hid) _ _
  have hhead : ∀ id, id < s.size → (s.add head).2.head id = s.head id := fun id hid => by
    rw [head_add, if_neg (Nat.ne_of_lt hid)]
  refine ⟨⟨⟨?_, ?_, ?_, ?_⟩, ?_⟩, ?_, hold, fun id hid => by rw [hhead id hid]⟩
  · intro c p hp
    rw [parent?_add] at hp
    rw [size_add]
    exact (h.parent_lt hp).trans (Nat.lt_succ_self _)
  · intro c p hp
    rw [parent?_add] at hp
    rw [hhead c (parent?_lt hp), hhead p (h.parent_lt hp)]
    exact h.admits hp
  · intro c p hp
    rw [parent?_add] at hp
    rw [hold c (parent?_lt hp), hold p (h.parent_lt hp), hhead p (h.parent_lt hp),
      hhead c (parent?_lt hp)]
    exact h.around hp
  · intro id hlt
    rw [size_add] at hlt
    rw [head_add]
    by_cases hid : id = s.size
    · rw [if_pos hid, hid, Function.update_self]
      exact hfits
    · rw [if_neg hid, Function.update_of_ne hid]
      exact h.fits id (by omega)
  · refine ⟨(h.root.lt.trans (Nat.lt_succ_self _)).trans_eq (size_add head).symm, ?_, ?_⟩
    · exact (hold _ h.root.lt).trans_le h.root.le
    · exact (congrArg Head.kind (hhead _ h.root.lt)).trans h.root.kind
  · rw [size_add]
    exact Nat.le_succ _

/-! ### Trees -/

/-- The tree at a node fits the reach of the node, however deep one looks. -/
theorem fits_viewFrom (hs : s.Linked) (depth : Nat) {X : Reach} (hid : id < s.size)
    (hle : C id ≤ X) : (s.viewFrom depth id).Fits X := by
  induction depth generalizing id X with
  | zero => exact .node ((h.fits id hid).mono hle) nofun nofun
  | succ depth ih =>
      have hhead : ∀ c, (s.viewFrom depth c).head = s.head c := by
        intro c
        cases depth <;> rfl
      refine .node ((h.fits id hid).mono hle) (fun c hc => ?_) fun c hc => ?_
      · obtain ⟨child, hchild, rfl⟩ := List.mem_map.mp hc
        rw [hhead]
        exact h.admits (hs.parent?_of_mem hchild)
      · obtain ⟨child, hchild, rfl⟩ := List.mem_map.mp hc
        rw [hhead]
        refine ih (hs.child_lt hchild) ?_
        exact (h.around (hs.parent?_of_mem hchild)).trans (Reach.around_mono _ _ hle)

theorem fits_view_root (hs : s.Linked) : (s.view s.root).Fits {} :=
  h.fits_viewFrom hs _ h.root.lt h.root.le

end Planned

/-! ### Exact plans -/

/-- Every child has the reach that its parent leaves to it. -/
def Exact (C : Plan) (s : Store) : Prop :=
  ∀ {c p}, s.parent? c = some p → C c = (C p).around (s.head p) (s.head c)

/-- What is not in a value has the reach that is inside its parent. -/
theorem Exact.eq_inside {C : Plan} (h : Exact C s) {c p : NodeId} (hp : s.parent? c = some p)
    (hvalued : (C c).valued = false) : C c = (C p).inside (s.head p) := by
  rw [h hp, Reach.around_of_not_values]
  refine Bool.eq_false_iff.mpr fun hvalues => Bool.eq_false_iff.mp hvalued ?_
  rw [h hp]
  exact Reach.valued_around hvalues

section ExactPlan

variable (hwf : WellFounded fun p c => s.parent? c = some p)

/-- Reaches that are found on the way down from the nodes without a parent. -/
noncomputable def exactPlan (C : Plan) : Plan :=
  hwf.fix fun id above =>
    match hp : s.parent? id with
    | none => C id
    | some p => (above p hp).around (s.head p) (s.head id)

theorem exactPlan_of_none (hp : s.parent? id = none) : exactPlan hwf C id = C id := by
  rw [exactPlan, WellFounded.fix_eq]
  split
  · rfl
  · simp_all

theorem exact_exactPlan : Exact (exactPlan hwf C) s := by
  intro c p hp
  rw [exactPlan, WellFounded.fix_eq]
  split
  · simp_all
  case h_2 q hq =>
      obtain rfl : q = p := Option.some_inj.mp (hq.symm.trans hp)
      rfl

/-- Exact reaches are as large as any. -/
theorem Placed.le_exactPlan (h : Placed C s) (id : NodeId) : C id ≤ exactPlan hwf C id := by
  induction id using hwf.induction with
  | _ id ih =>
      cases hp : s.parent? id with
      | none => exact le_of_eq (exactPlan_of_none hwf hp).symm
      | some p =>
          rw [exact_exactPlan hwf hp]
          exact (h.around hp).trans (Reach.around_mono _ _ (ih p hp))

end ExactPlan

/-- A store with a plan has an exact one. -/
theorem Planned.exact (h : Planned C s) (hs : s.Forest) : ∃ C', Planned C' s ∧ Exact C' s := by
  have hexact : Exact (exactPlan hs.wellFounded_parent C) s := exact_exactPlan _
  refine ⟨_, ⟨⟨h.parent_lt, h.admits, fun hp => le_of_eq (hexact hp), ?_⟩, h.root.lt, ?_,
    h.root.kind⟩, hexact⟩
  · exact fun id hid => (h.fits id hid).mono (h.le_exactPlan _ id)
  · rw [exactPlan_of_none _ hs.root_parent]
    exact h.root.le

/-! ### Grafted trees -/

/-- The new nodes of a store that a tree has been grafted to get the reaches of the tree. -/
theorem exists_plan_of_grown {t : Tree} {X : Reach}
    (hgrown : Grown (fun t => ∃ X, t.Fits X) s s' [new])
    (hwf : WellFounded fun p c => s'.parent? c = some p) (hle : s.size ≤ new)
    (hlt : new < s'.size) (hnew : s'.parent? new = none) (ht : t.Fits X)
    (hshows : s'.Shows new t) (C : Plan) :
    ∃ C' : Plan, (∀ id < s.size, C' id = C id) ∧ C' new = X ∧
      (∀ id, s.size ≤ id → id < s'.size → ∃ t, s'.Shows id t ∧ t.Fits (C' id)) ∧
      ∀ c p, s.size ≤ c → s'.parent? c = some p →
        c ∈ s'.children p ∧ s.size ≤ p ∧ C' c = (C' p).around (s'.head p) (s'.head c) := by
  classical
  have hup : ∀ c p, s.size ≤ c → s'.parent? c = some p → s.size ≤ p ∧ c ∈ s'.children p := by
    intro c p hc hp
    refine hgrown.up p c hc hp ?_
    rw [List.mem_singleton]
    rintro rfl
    rw [hnew] at hp
    cases hp
  -- Every new node fits somewhere; the topmost one fits where the tree is to be.
  have hbase : ∀ id, ∃ Y : Reach, s.size ≤ id → id < s'.size →
      (∃ t, s'.Shows id t ∧ t.Fits Y) ∧ (id = new → Y = X) := by
    intro id
    by_cases hid : id = new
    · subst hid
      exact ⟨X, fun _ _ => ⟨⟨t, hshows, ht⟩, fun _ => rfl⟩⟩
    · by_cases hrange : s.size ≤ id ∧ id < s'.size
      · obtain ⟨t', ⟨Y, hY⟩, hshown⟩ := hgrown.shows id hrange.1 hrange.2
        exact ⟨Y, fun _ _ => ⟨⟨t', hshown, hY⟩, fun h => absurd h hid⟩⟩
      · exact ⟨X, fun h h' => absurd ⟨h, h'⟩ hrange⟩
  choose base hbase using hbase
  have hnewer : ∀ id, s.size ≤ id →
      (if id < s.size then C id else exactPlan hwf base id) = exactPlan hwf base id :=
    fun id hid => if_neg (Nat.not_lt.mpr hid)
  refine ⟨fun id => if id < s.size then C id else exactPlan hwf base id, fun id hid => if_pos hid,
    ?_, ?_, ?_⟩
  · dsimp only
    rw [hnewer new hle, exactPlan_of_none hwf hnew]
    exact (hbase new hle hlt).2 rfl
  · intro id
    induction id using hwf.induction with
    | _ id ih =>
        intro hid hidlt
        dsimp only at ih ⊢
        rw [hnewer id hid]
        cases hp : s'.parent? id with
        | none =>
            rw [exactPlan_of_none hwf hp]
            exact (hbase id hid hidlt).1
        | some p =>
            obtain ⟨hple, hmem⟩ := hup id p hid hp
            obtain ⟨t', hshown, hfits⟩ := ih p hp hple (lt_of_mem_children hmem)
            obtain ⟨c, hc, hshown'⟩ := hshown.children.of_mem hmem
            refine ⟨c, hshown', ?_⟩
            rw [exact_exactPlan hwf hp, hshown.head_eq, hshown'.head_eq, ← hnewer p hple]
            exact hfits.child hc
  · intro c p hc hp
    obtain ⟨hple, hmem⟩ := hup c p hc hp
    dsimp only
    rw [hnewer c hc, hnewer p hple]
    exact ⟨hmem, hple, exact_exactPlan hwf hp⟩

/-- Trees that fit have trees below them that fit. -/
theorem exists_fits_child : ∀ head children, (∃ X, (Tree.node head children).Fits X) →
    ∀ c ∈ children, ∃ X, c.Fits X := by
  rintro head children ⟨X, hfits⟩ c hc
  exact ⟨_, hfits.child hc⟩

/-- A plan grows with the store. -/
theorem Placed.of_grown {P : Tree → Prop} {topmost : List NodeId} (h : Placed C s)
    (hgrown : Grown P s s' topmost) (hold : ∀ id < s.size, C' id = C id)
    (hfits : ∀ id, s.size ≤ id → id < s'.size → ∃ t, s'.Shows id t ∧ t.Fits (C' id))
    (hlinks : ∀ c p, s.size ≤ c → s'.parent? c = some p →
      c ∈ s'.children p ∧ s.size ≤ p ∧ C' c = (C' p).around (s'.head p) (s'.head c)) :
    Placed C' s' := by
  have hhead : ∀ id < s.size, s'.head id = s.head id := by
    intro id hid
    rw [head, hgrown.node_eq id hid]
    rfl
  have hparent : ∀ id < s.size, s'.parent? id = s.parent? id := by
    intro id hid
    rw [parent?, hgrown.node_eq id hid]
    rfl
  refine ⟨?_, ?_, ?_, ?_⟩
  · intro c p hp
    by_cases hc : c < s.size
    · rw [hparent c hc] at hp
      exact (h.parent_lt hp).trans_le hgrown.size_le
    · exact lt_of_mem_children (hlinks c p (Nat.le_of_not_lt hc) hp).1
  · intro c p hp
    by_cases hc : c < s.size
    · rw [hparent c hc] at hp
      rw [hhead c hc, hhead p (h.parent_lt hp)]
      exact h.admits hp
    · obtain ⟨hmem, hple, -⟩ := hlinks c p (Nat.le_of_not_lt hc) hp
      obtain ⟨t, hshows, ht⟩ := hfits p hple (lt_of_mem_children hmem)
      obtain ⟨t', ht', hshows'⟩ := hshows.children.of_mem hmem
      rw [hshows.head_eq, hshows'.head_eq]
      exact ht.admits ht'
  · intro c p hp
    by_cases hc : c < s.size
    · rw [hparent c hc] at hp
      have hplt := h.parent_lt hp
      rw [hold c hc, hold p hplt, hhead p hplt, hhead c hc]
      exact h.around hp
    · exact le_of_eq (hlinks c p (Nat.le_of_not_lt hc) hp).2.2
  · intro id hlt
    by_cases hid : id < s.size
    · rw [hhead id hid, hold id hid]
      exact h.fits id hid
    · obtain ⟨t, hshows, ht⟩ := hfits id (Nat.le_of_not_lt hid) hlt
      rw [hshows.head_eq]
      exact ht.head

/-- A tree that is grafted gets a reach in which it fits. -/
theorem Planned.graft {t : Tree} {X : Reach} (h : Planned C s) (hs : s.Forest) (ht : t.Fits X) :
    ∃ C', Extends C s C' (s.graft t).2 ∧ C' (s.graft t).1 = X ∧
      (s.graft t).2.head (s.graft t).1 = t.head := by
  obtain ⟨hid, hgrown, hlt, hnone, hshows⟩ :=
    grown_graft (P := fun t => ∃ X, Tree.Fits X t) exists_fits_child ⟨X, ht⟩ s
  obtain ⟨C', hold, hnew, hfits, hlinks⟩ := exists_plan_of_grown hgrown
    (hs.graft t).wellFounded_parent (Nat.le_refl _) hlt hnone ht hshows C
  have hplaced := h.toPlaced.of_grown hgrown hold hfits hlinks
  rw [hid]
  refine ⟨C', ⟨⟨hplaced, ?_⟩, hgrown.size_le, hold, fun id hlt => ?_⟩, hnew, hshows.head_eq⟩
  · rw [Store.root, hgrown.chosenRoot_eq]
    refine ⟨h.root.lt.trans_le hgrown.size_le, (hold _ h.root.lt).trans_le h.root.le, ?_⟩
    exact (congrArg (·.head.kind) (hgrown.node_eq _ h.root.lt)).trans h.root.kind
  · rw [head, hgrown.node_eq id hlt]
    rfl

/-- The store of a script that fits what is around it has a plan. -/
theorem exists_planned_ofTree {t : Tree} (ht : t.Fits {}) (hkind : t.head.kind = .script) :
    ∃ C, Planned C (ofTree t) := by
  have hempty : Placed (fun _ => {}) {} :=
    ⟨nofun, nofun, nofun, nofun⟩
  obtain ⟨hid, hgrown, hlt, hnone, hshows⟩ :=
    grown_graft (P := fun t => ∃ X, Tree.Fits X t) exists_fits_child ⟨{}, ht⟩ {}
  obtain ⟨C', hold, hnew, hfits, hlinks⟩ := exists_plan_of_grown hgrown
    (forest_ofTree t).wellFounded_parent (Nat.le_refl _) hlt hnone ht hshows fun _ => {}
  have hplaced := hempty.of_grown hgrown hold hfits hlinks
  have hroot : (ofTree t).root = ({} : Store).size := hid
  refine ⟨C', ⟨hplaced.parent_lt, hplaced.admits, hplaced.around, hplaced.fits⟩, ?_⟩
  rw [hroot]
  refine ⟨hlt, le_of_eq hnew, ?_⟩
  rw [← hkind, ← hshows.head_eq]
  rfl

end Store

end ScriptMin
