import ScriptMin.Proofs.Pass.Editing
import ScriptMin.Proofs.Store.Planning

/-!
Edits of planned stores. An edit may ask for an exact plan of the store that it starts from; it
then keeps to that plan for the nodes it finds and extends it to those it makes. What edits do to
statements is told once for all passes.
-/

namespace ScriptMin

open Store

variable {α β : Type} {s s' s'' : Store}
  {id parent old new block anchor child expression : NodeId} {C C' C'' : Plan} {X Y : Reach}

/-- Whether values can be children of nodes of the kind, and jumps in them do not care for it. -/
def Kind.holdsValues (kind : Kind) : Bool := kind.isNeutral && (kind.isOperation || kind.isPlain)

theorem Kind.isNeutral_of_isOperation {kind : Kind} (h : kind.isOperation) : kind.isNeutral := by
  cases kind <;> first | rfl | cases h

/-- Whether nodes of the kind are statements that any other statement can take the place of. -/
def Kind.isFreeStatement (kind : Kind) : Bool :=
  kind.isStatement && kind != .function && !kind.isFixed

namespace Store

/-- A store has a plan. -/
def Arranged (s : Store) : Prop := ∃ C, Planned C s

/-- A forest with a plan. -/
structure Ordered (s : Store) : Prop extends Forest s where
  arranged : s.Arranged

/-- Ordered stores have exact plans. -/
theorem Ordered.exists_exact (h : s.Ordered) : ∃ C, Planned C s ∧ Exact C s := by
  obtain ⟨C, hC⟩ := h.arranged
  exact hC.exact h.toForest

/-- A store has a plan, and the nodes of an earlier one are what they were. -/
structure Rearranged (s s' : Store) : Prop where
  size_le : s.size ≤ s'.size
  sort_eq : ∀ id < s.size, (s'.head id).sort = (s.head id).sort
  arranged : s'.Arranged

theorem Extends.rearranged (h : Extends C s C' s') : s.Rearranged s' :=
  ⟨h.size_le, h.sort_eq, C', h.planned⟩

namespace Rearranged

theorem refl (h : s.Arranged) : s.Rearranged s := ⟨Nat.le_refl _, fun _ _ => rfl, h⟩

theorem trans (h : s.Rearranged s') (h' : s'.Rearranged s'') : s.Rearranged s'' where
  size_le := h.size_le.trans h'.size_le
  sort_eq id hid := (h'.sort_eq id (hid.trans_le h.size_le)).trans (h.sort_eq id hid)
  arranged := h'.arranged

theorem lt (h : s.Rearranged s') (hid : id < s.size) : id < s'.size := hid.trans_le h.size_le

theorem kind_eq (h : s.Rearranged s') (hid : id < s.size) : s'.kind id = s.kind id :=
  congrArg Prod.fst (h.sort_eq id hid)

end Rearranged

end Store

/-! ### Edits that keep plans -/

namespace Edit

/-- An edit leaves a store with a plan behind. -/
def KeepsPlan (m : Edit α) (s : Store) : Prop := Gives m s fun _ s' => s.Rearranged s'

/-- An edit leaves a forest with a plan behind. -/
def KeepsOrder (m : Edit α) (s : Store) : Prop :=
  Gives m s fun _ s' => s'.Ordered ∧ s.Rearranged s'

theorem KeepsForest.keepsOrder {m : Edit α} (hforest : KeepsForest m s) (hplan : KeepsPlan m s) :
    KeepsOrder m s :=
  ⟨⟨hforest, hplan.arranged⟩, hplan⟩

theorem KeepsOrder.bind {m : Edit α} {f : α → Edit β} (h : KeepsOrder m s)
    (hf : ∀ a s', s'.Ordered → s.Rearranged s' → KeepsOrder (f a) s') :
    KeepsOrder (m >>= f) s := by
  rw [KeepsOrder, gives_bind]
  exact Gives.mono h fun a s' hs => (hf a s' hs.1 hs.2).mono fun _ _ hs' =>
    ⟨hs'.1, hs.2.trans hs'.2⟩

theorem keepsOrder_pure (h : s.Ordered) {a : α} : KeepsOrder (pure a : Edit α) s :=
  ⟨h, .refl h.arranged⟩

/-- A sweep keeps the plan if the edit of every item does, whatever has become of the store. -/
theorem keepsOrder_sweep {edit : α → Edit Bool} {items : List α} (h : s.Ordered)
    (hedit : ∀ item ∈ items, ∀ s', s'.Ordered → s.Rearranged s' → KeepsOrder (edit item) s') :
    KeepsOrder (sweep edit items) s := by
  refine (gives_sweep (I := fun rest s' => rest ⊆ items ∧ s'.Ordered ∧ s.Rearranged s')
    ⟨List.Subset.refl _, h, .refl h.arranged⟩ ?_).mono fun _ _ hs => hs.2
  rintro item rest s' ⟨hrest, hs, hkept⟩
  obtain ⟨hitem, hrest⟩ := List.cons_subset.mp hrest
  exact (hedit item hitem s' hs hkept).mono fun _ s'' hs' => ⟨hrest, hs'.1, hkept.trans hs'.2⟩

end Edit

namespace Store

theorem lt_of_not_isFixed (hfixed : (s.kind id).isFixed = false) : id < s.size := by
  refine lt_of_kind fun hscript => ?_
  rw [hscript] at hfixed
  cases hfixed

/-! ### Nodes that can be replaced -/

/-- A node is a statement that any other statement can take the place of. -/
structure Replaceable (s : Store) (id : NodeId) : Prop where
  not_isFixed : (s.kind id).isFixed = false
  not_isExpression : (s.head id).isExpression = false

theorem replaceable_of_kind (hkind : (s.kind id).isFreeStatement) : s.Replaceable id := by
  simp only [Kind.isFreeStatement, Bool.and_eq_true, bne_iff_ne, Bool.not_eq_true'] at hkind
  obtain ⟨⟨hstatement, hfunction⟩, hfixed⟩ := hkind
  rw [kind] at hstatement hfunction
  exact ⟨hfixed, by simp [Head.isExpression, hstatement, hfunction]⟩

namespace Replaceable

theorem lt (h : s.Replaceable id) : id < s.size := lt_of_not_isFixed h.not_isFixed

theorem of_extends (h : s.Replaceable id) (hs : Extends C s C' s') : s'.Replaceable id where
  not_isFixed := by rw [hs.kind_eq h.lt]; exact h.not_isFixed
  not_isExpression := by rw [hs.isExpression_eq h.lt]; exact h.not_isExpression

end Replaceable

/-! ### Values -/

/-- A node is an expression in a value with at most a certain reach. -/
structure Value (C : Plan) (s : Store) (X : Reach) (id : NodeId) : Prop where
  lt : id < s.size
  isExpression : (s.head id).isExpression
  le : C id ≤ X
  valued : (C id).valued

theorem Value.of_extends (h : Value C s X id) (hs : Extends C s C' s') : Value C' s' X id where
  lt := hs.lt h.lt
  isExpression := by rw [hs.isExpression_eq h.lt]; exact h.isExpression
  le := by rw [hs.plan_eq id h.lt]; exact h.le
  valued := by rw [hs.plan_eq id h.lt]; exact h.valued

theorem Value.ne_script (h : Value C s X id) : s.kind id ≠ .script := by
  intro hscript
  have hvalue := h.isExpression
  rw [Head.isExpression, show (s.head id).kind = _ from hscript] at hvalue
  cases hvalue

theorem Value.mono (h : Value C s X id) (hle : X ≤ Y) : Value C s Y id :=
  ⟨h.lt, h.isExpression, h.le.trans hle, h.valued⟩

/-- What is a value somewhere is one as a part of a value there. -/
theorem Value.value (h : Value C s X id) : Value C s X.value id :=
  ⟨h.lt, h.isExpression, Reach.le_value h.le h.valued, h.valued⟩

namespace Planned

/-- What is inside a construct that jumps do not care for is allowed in its place. -/
theorem le_of_mem (h : Planned C s) (hs : s.Linked) (hneutral : (s.kind id).isNeutral)
    (hc : child ∈ s.children id) : C child ≤ (C id).idle := by
  have hle := h.below (hs.parent?_of_mem hc)
  rwa [Reach.inside_of_isNeutral hneutral] at hle

/-- What stands in a role of values is a value. -/
theorem value_of_child? (h : Planned C s) (hs : s.Linked) (hneutral : (s.kind id).isNeutral)
    {role : Role} (hrole : role.isExpression) (hc : s.child? id role = some child) :
    Value C s (C id).idle child where
  lt := hs.child_lt (mem_of_child? hc)
  isExpression :=
    (h.admits (hs.parent?_of_mem (mem_of_child? hc))).role role (role?_of_child? hc) hrole
  le := h.le_of_mem hs hneutral (mem_of_child? hc)
  valued := h.valued (hs.parent?_of_mem (mem_of_child? hc))
    (Head.values_of_role (role?_of_child? hc) hrole)

/-- The children of operations are values. -/
theorem value_of_mem (h : Planned C s) (hs : s.Linked) (hkind : (s.kind id).isOperation)
    (hc : child ∈ s.children id) : Value C s (C id).idle child where
  lt := hs.child_lt hc
  isExpression := (h.admits (hs.parent?_of_mem hc)).operand hkind
  le := h.le_of_mem hs (Kind.isNeutral_of_isOperation hkind) hc
  valued := h.valued (hs.parent?_of_mem hc) (Head.values_of_isOperation hkind)

/-- Values in a value are values in its place. -/
theorem value_of_value (h : Planned C s) (hs : s.Linked) (hid : Value C s X.idle id)
    (hkind : (s.kind id).isOperation) (hc : child ∈ s.children id) : Value C s X.idle child :=
  (h.value_of_mem hs hkind hc).mono (Reach.idle_mono (Y := X.idle) hid.le)

theorem value_of_expressionOf? (h : Planned C s) (hs : s.Linked)
    (hc : s.expressionOf? id = some child) : Value C s (C id).idle child := by
  obtain ⟨hkind, hchild⟩ := kind_role_of_expressionOf? hc
  exact h.value_of_child? hs (by rw [hkind]; rfl) rfl hchild

end Planned

/-! ### New nodes -/

/-- A node of a certain kind that an edit has made, with its reach. -/
structure Made (C : Plan) (s : Store) (kind : Kind) (X : Reach) (C' : Plan) (s' : Store)
    (new : NodeId) : Prop extends Extends C s C' s' where
  lt_new : new < s'.size
  plan_new : C' new = X
  kind_new : s'.kind new = kind

theorem head_of_add {head : Head} (hadd : s.add head = (new, s')) : s'.head new = head := by
  obtain ⟨rfl, rfl⟩ := Prod.mk.inj hadd
  exact (head_add head).trans (if_pos rfl)

theorem Planned.made_add {head : Head} (h : Planned C s) (hfits : head.FitsIn X)
    (hadd : s.add head = (new, s')) : ∃ C', Made C s head.kind X C' s' new := by
  obtain ⟨rfl, rfl⟩ := Prod.mk.inj hadd
  refine ⟨_, h.add hfits, ?_, Function.update_self .., kind_add head⟩
  exact (Nat.lt_succ_self _).trans_eq (size_add head).symm

/-- A value becomes an operand. -/
theorem Planned.appendValue (h : Planned C s) (hkind : (s.kind parent).isOperation)
    (hlt : parent < s.size) (hchild : Value C s (C parent).idle child) :
    Extends C s C (s.append parent child) := by
  refine h.append hlt (Head.admits_of_isOperation hkind hchild.isExpression) ?_
  refine Reach.le_around ?_ fun _ => hchild.valued
  rw [Reach.inside_of_isNeutral (Kind.isNeutral_of_isOperation hkind)]
  exact hchild.le

namespace Made

variable {kind : Kind}

theorem trans (h : Made C s kind X C' s' new) (hs : Extends C' s' C'' s'') :
    Made C s kind X C'' s'' new where
  toExtends := h.toExtends.trans hs
  lt_new := hs.lt h.lt_new
  plan_new := by rw [hs.plan_eq new h.lt_new, h.plan_new]
  kind_new := by rw [hs.kind_eq h.lt_new, h.kind_new]

theorem isExpression (h : Made C s kind X C' s' new) (hkind : kind.isStatement = false) :
    (s'.head new).isExpression := by
  rw [Head.isExpression, show (s'.head new).kind = kind from h.kind_new, hkind]
  rfl

/-- New operations with the reach of a value are values. -/
theorem value (h : Made C s kind X.value C' s' new) (hkind : kind.isStatement = false) :
    Value C' s' X new where
  lt := h.lt_new
  isExpression := h.isExpression hkind
  le := h.plan_new ▸ Reach.value_le
  valued := by rw [h.plan_new]; rfl

/-- A value becomes a child of a new node. -/
theorem append (h : Made C s kind X C' s' new) (hkind : kind.holdsValues)
    (hchild : Value C' s' X.idle child) : Made C s kind X C' (s'.append new child) new := by
  have hnew : (s'.head new).kind = kind := h.kind_new
  rw [Kind.holdsValues, Bool.and_eq_true, Bool.or_eq_true] at hkind
  refine h.trans (h.planned.append h.lt_new ?_ ?_)
  · rcases hkind.2 with hoperation | hplain
    · exact Head.admits_of_isOperation (hnew ▸ hoperation) hchild.isExpression
    · exact Head.admits_of_isPlain (hnew ▸ hplain) fun _ _ _ => hchild.isExpression
  · refine Reach.le_around ?_ fun _ => hchild.valued
    rw [Reach.inside_of_isNeutral (hnew ▸ hkind.1), h.plan_new]
    exact hchild.le

theorem dropRole (h : Made C s kind X C' s' new) (id : NodeId) :
    Made C s kind X C' (s'.setRole id none) new :=
  h.trans h.planned.dropRole

/-- A value becomes a child of a new node in a role. -/
theorem appendAs (h : Made C s kind X C' s' new) (hkind : kind.holdsValues) (role : Role)
    (hrole : role ≠ .body) (hchild : Value C' s' X.idle child) :
    Made C s kind X C' (s'.appendAs new role child) new := by
  have happend := h.append hkind hchild
  refine happend.trans (happend.planned.setRole (fun _ => ?_) (fun _ => hchild.valued) hrole)
  rw [append_eq, head_attach]
  exact hchild.isExpression

/-- A new node takes the place of one that can be any node. -/
theorem replace (h : Made C s kind X C' s' new) (hle : X ≤ C old)
    (hfixed : (s.kind old).isFixed = false)
    (hexpression : (s.head old).isExpression → kind.isStatement = false) :
    Extends C s C' (s'.replace old new) := by
  have hold := lt_of_not_isFixed hfixed
  refine h.toExtends.trans (h.planned.replace_of_not_isFixed h.lt_new ?_ ?_ fun hvalue => ?_)
  · rw [h.plan_new, h.plan_eq old hold]
    exact hle
  · rwa [h.kind_eq hold]
  · rw [h.isExpression_eq hold] at hvalue
    exact h.isExpression (hexpression hvalue)

theorem replaceStatement (h : Made C s kind X C' s' new) (hle : X ≤ C old)
    (hold : s.Replaceable old) : s.Rearranged (s'.replace old new) := by
  refine (h.replace hle hold.not_isFixed fun hexpression => ?_).rearranged
  rw [hold.not_isExpression] at hexpression
  cases hexpression

end Made

/-! ### Statements -/

/-- A node can stand in a list of statements: its role is not one of values, unless it is one. -/
def Listable (C : Plan) (s : Store) (id : NodeId) : Prop :=
  ∀ role, s.role? id = some role → role.isExpression → (s.head id).isExpression ∧ (C id).valued

theorem Listable.dropRole (h : Listable C s id) : Listable C (s.setRole child none) id := by
  intro role hrole hexpression
  rw [role?, setRole, head_modifyHead] at hrole
  rw [setRole, head_modifyHead]
  split at hrole
  · cases hrole
  case isFalse hne =>
      rw [if_neg hne]
      exact h role hrole hexpression

theorem Listable.remove (h : Listable C s id) : Listable C (s.remove child) id := by
  refine Listable.dropRole ?_
  rwa [Listable, role?, head_detach]

/-- Nodes with a certain reach have room beside a node. -/
def Roomy (C : Plan) (s : Store) (X : Reach) (id : NodeId) : Prop :=
  ∀ p, s.parent? id = some p → X ≤ (C p).inside (s.head p)

theorem Roomy.dropRole (h : Roomy C s X id) : Roomy C (s.setRole child none) X id := by
  intro p hp
  rw [parent?_setRole] at hp
  refine (h p hp).trans_eq (Reach.inside_congr ?_ fun _ => ?_).symm
  all_goals
    rw [Store.setRole, head_modifyHead]
    split <;> rfl

theorem Roomy.remove (h : Roomy C s X id) : Roomy C (s.remove child) X id := by
  refine Roomy.dropRole fun p hp => ?_
  rw [parent?_detach] at hp
  split at hp
  · cases hp
  · rw [head_detach]
    exact h p hp

/-- Lists of statements hold values only where the role says so. -/
theorem values_of_isStatementList {p c : Head} (hp : p.kind.isStatementList) (hc : p.values c) :
    ∃ role, c.role = some role ∧ role.isExpression := by
  rw [Head.values, Bool.or_eq_true, Option.any_eq_true] at hc
  refine hc.resolve_left ?_
  cases hkind : p.kind <;> simp_all [Kind.isStatementList, Kind.isOperation, Kind.isStatement]

theorem admits_of_isStatementList {p c : Head} (hp : p.kind.isStatementList)
    (hc : ∀ role, c.role = some role → role.isExpression → c.isExpression) : p.Admits c := by
  refine Head.admits_of_isPlain ?_ hc
  cases hkind : p.kind <;> simp_all [Kind.isStatementList, Kind.isPlain, Kind.isOperation,
    Kind.isStatement]

namespace Planned

theorem listable (h : Planned C s) (hparent : s.parent? id = some parent) : Listable C s id :=
  fun role hrole hexpression => ⟨(h.admits hparent).role role hrole hexpression,
    h.valued hparent (Head.values_of_role hrole hexpression)⟩

theorem roomy (h : Planned C s) (hle : X ≤ C id) : Roomy C s X id :=
  fun _ hp => hle.trans (h.below hp)

/-- A node is put beside one in a list of statements where there is room for it. -/
theorem insert_listed (h : Planned C s) (hanchor : s.Listed anchor) (hroom : Roomy C s X anchor)
    (hp : s.parent? anchor = some parent) (hlt : child < s.size) (hle : C child ≤ X)
    (hchild : Listable C s child) (index : Nat) :
    Extends C s C (s.insert parent index child) ∧
      (∀ other, s.Listed other → (s.insert parent index child).Listed other) ∧
      ∀ other, Roomy C s X other → Roomy C (s.insert parent index child) X other := by
  have hadmits := admits_of_isStatementList (hanchor parent hp)
    fun role hrole hexpression => (hchild role hrole hexpression).1
  have hinsert := h.insert index (h.parent_lt hp) hadmits <|
    Reach.le_around (hle.trans (hroom parent hp)) fun hvalues =>
      have ⟨role, hrole, hexpression⟩ := values_of_isStatementList (hanchor parent hp) hvalues
      (hchild role hrole hexpression).2
  -- The new node has the parent of the other one, and no other node has a new parent.
  refine ⟨hinsert, fun other hother q hq => ?_, fun other hother q hq => ?_⟩
  all_goals
    rw [parent?_insert hlt] at hq
    split at hq
  · rw [← Option.some_inj.mp hq, hinsert.kind_eq (h.parent_lt hp)]
    exact hanchor parent hp
  · rw [hinsert.kind_eq (h.parent_lt hq)]
    exact hother q hq
  · rw [← Option.some_inj.mp hq, insert_eq, head_attach]
    exact hroom parent hp
  · rw [insert_eq, head_attach]
    exact hother q hq

theorem insertBefore (h : Planned C s) (hanchor : s.Listed anchor) (hlt : child < s.size)
    (hle : C child ≤ C anchor) (hchild : Listable C s child) :
    Extends C s C (s.insertBefore anchor child) ∧
      ∀ other, s.Listed other → (s.insertBefore anchor child).Listed other := by
  rw [Store.insertBefore]
  split
  case h_1 p index hp _ =>
      obtain ⟨hinsert, hlisted, -⟩ :=
        h.insert_listed hanchor (h.roomy (le_refl _)) hp hlt hle hchild index
      exact ⟨hinsert, hlisted⟩
  case h_2 => exact ⟨.refl h, fun _ => id⟩

theorem insertAfter (h : Planned C s) (hanchor : s.Listed anchor) (hroom : Roomy C s X anchor)
    (hlt : child < s.size) (hle : C child ≤ X) (hchild : Listable C s child) :
    Extends C s C (s.insertAfter anchor child) ∧
      (∀ other, s.Listed other → (s.insertAfter anchor child).Listed other) ∧
      ∀ other, Roomy C s X other → Roomy C (s.insertAfter anchor child) X other := by
  rw [Store.insertAfter]
  split
  case h_1 p index hp _ => exact h.insert_listed hanchor hroom hp hlt hle hchild _
  case h_2 => exact ⟨.refl h, fun _ => id, fun _ => id⟩

end Planned

theorem head_insertBefore : (s.insertBefore anchor child).head id = s.head id := by
  rw [Store.insertBefore]
  split
  · rw [insert_eq, head_attach]
  · rfl

theorem head_insertAfter : (s.insertAfter anchor child).head id = s.head id := by
  rw [Store.insertAfter]
  split
  · rw [insert_eq, head_attach]
  · rfl

namespace Planned

theorem foldl_insertBefore {ids : List NodeId} (h : Planned C s) (hanchor : s.Listed anchor)
    (hids : ∀ id ∈ ids, id < s.size ∧ C id ≤ C anchor ∧ Listable C s id) :
    Extends C s C (ids.foldl (fun s id => s.insertBefore anchor id) s) ∧ ∀ other, s.Listed other →
      (ids.foldl (fun s id => s.insertBefore anchor id) s).Listed other := by
  induction ids generalizing s with
  | nil => exact ⟨.refl h, fun _ => id⟩
  | cons id rest ih =>
      obtain ⟨⟨hlt, hle, hid⟩, hrest⟩ := List.forall_mem_cons.mp hids
      obtain ⟨hinsert, hlisted⟩ := h.insertBefore hanchor hlt hle hid
      have hrest' : ∀ other ∈ rest, other < (s.insertBefore anchor id).size ∧
          C other ≤ C anchor ∧ Listable C (s.insertBefore anchor id) other := by
        intro other hother
        obtain ⟨hlt, hle, hother⟩ := hrest other hother
        refine ⟨hinsert.lt hlt, hle, ?_⟩
        rwa [Listable, role?, head_insertBefore]
      obtain ⟨hmoved, hlisted'⟩ := ih hinsert.planned (hlisted anchor hanchor) hrest'
      exact ⟨hinsert.trans hmoved, fun other hother => hlisted' other (hlisted other hother)⟩

/-- The statements of a block move to where the block, or a statement around it, is. -/
theorem spliceBefore (h : Planned C s) (hs : s.Linked) (hanchor : s.Listed anchor)
    (hblock : s.kind block = .block) (hle : C block ≤ C anchor) :
    Extends C s C (s.spliceBefore block anchor) ∧
      ∀ other, s.Listed other → (s.spliceBefore block anchor).Listed other := by
  have hchildren : ∀ c ∈ s.children block, c < s.size ∧ C c ≤ C anchor ∧ Listable C s c := by
    intro c hc
    refine ⟨hs.child_lt hc, ?_, h.listable (hs.parent?_of_mem hc)⟩
    exact ((h.le_of_mem hs (by rw [hblock]; rfl) hc).trans Reach.idle_le).trans hle
  obtain ⟨hmoved, hlisted⟩ := h.foldl_insertBefore hanchor hchildren
  exact ⟨hmoved.trans hmoved.planned.remove, fun other hother => (hlisted other hother).remove⟩

/-- A statement takes the place of one around it. -/
theorem replaceStatement (h : Planned C s) (hs : s.Linked) (hlt : new < s.size)
    (hle : C new ≤ C old) (hold : s.Replaceable old) : Extends C s C (s.replaceStatement old new) := by
  rw [Store.replaceStatement]
  split
  case isTrue hcase =>
      simp only [Bool.and_eq_true, beq_iff_eq] at hcase
      exact (h.spliceBefore hs (listed_of_inStatementList hcase.1.1) hcase.1.2 hle).1
  case isFalse =>
      exact h.replace_of_not_isFixed hlt hle hold.not_isFixed (by simp [hold.not_isExpression])

/-- A statement is removed, or replaced by the empty one. -/
theorem removeStatement (h : Planned C s) (hid : s.Replaceable id) :
    s.Rearranged (s.removeStatement id) := by
  rw [Store.removeStatement]
  split
  · exact h.remove.rearranged
  · rcases hadd : s.add { kind := .semicolon, span := s.span id } with ⟨empty, s'⟩
    obtain ⟨C', hmade⟩ := h.made_add (X := C id) (Head.fitsIn_of_not_isBound rfl) hadd
    exact hmade.replaceStatement (le_refl _) hid

/-- A value becomes a statement of its own. -/
theorem made_wrapExpression (h : Planned C s) (hexpression : Value C s X.idle expression)
    (hwrap : s.wrapExpression expression = (new, s')) :
    ∃ C', Made C s .semicolon X C' s' new := by
  rcases hadd : s.add { kind := .semicolon, span := s.span expression } with ⟨statement, s₁⟩
  obtain ⟨C', hmade⟩ := h.made_add (X := X) (Head.fitsIn_of_not_isBound rfl) hadd
  rw [Store.wrapExpression, hadd] at hwrap
  obtain ⟨rfl, rfl⟩ := Prod.mk.inj hwrap
  exact ⟨C', hmade.appendAs rfl _ (by simp) (hexpression.of_extends hmade.toExtends)⟩

end Planned

end Store

end ScriptMin
