import ScriptMin.Proofs.Store.Taking

/-!
Insertion next to a sibling. The position is read off before the node leaves its old place. A node
that stood behind the sibling, or below another node, lands where it should; one that stood before
the sibling pulls the sibling one position to the front and lands one position too far behind it.
In every case all other children keep their order.
-/

namespace ScriptMin.Store

variable {s : Store} {id parent sibling child left right : NodeId} {before behind : List NodeId}

/-! ### Positions among siblings -/

/-- One node stands immediately before another among the children of a node. -/
def Adjoins (s : Store) (parent left right : NodeId) : Prop := [left, right] <:+: s.children parent

/-- One node stands somewhere before another among the children of a node. -/
def Leads (s : Store) (parent left right : NodeId) : Prop :=
  [left, right].Sublist (s.children parent)

instance : Decidable (s.Adjoins parent left right) :=
  inferInstanceAs (Decidable ([left, right] <:+: s.children parent))

instance : Decidable (s.Leads parent left right) :=
  inferInstanceAs (Decidable ([left, right].Sublist (s.children parent)))

theorem Adjoins.leads (h : s.Adjoins parent left right) : s.Leads parent left right := h.sublist

theorem adjoins_of_split (h : s.children parent = before ++ left :: right :: behind) :
    s.Adjoins parent left right :=
  ⟨before, behind, by rw [h, List.append_assoc]; rfl⟩

/-! ### Lists without one of their members -/

theorem filter_of_not_mem {ids : List NodeId} (h : child ∉ ids) :
    ids.filter (· ≠ child) = ids :=
  List.filter_eq_self.mpr fun _ hid => decide_eq_true fun heq => h (heq ▸ hid)

/-- A member that stands before a node is missing there and not behind it. -/
theorem filter_of_mem (hnodup : (before ++ sibling :: behind).Nodup) (hmem : child ∈ before) :
    before.length = (before.filter (· ≠ child)).length + 1 ∧
      behind.filter (· ≠ child) = behind := by
  constructor
  · have hfilter : before.filter (· ≠ child) = before.erase child := by
      rw [hnodup.of_append_left.erase_eq_filter]
      exact List.filter_congr fun id _ => by rw [bne, decide_not]; rfl
    rw [hfilter, List.length_erase_of_mem hmem]
    have := List.length_pos_of_mem hmem
    omega
  · exact filter_of_not_mem fun hbehind =>
      List.disjoint_of_nodup_append hnodup hmem (List.mem_cons_of_mem _ hbehind)

theorem filter_insertIdx_self (ids : List NodeId) (i : Nat) (child : NodeId) :
    (ids.insertIdx i child).filter (· ≠ child) = ids.filter (· ≠ child) := by
  induction ids generalizing i with
  | nil => cases i <;> simp
  | cons first rest ih => cases i <;> simp_all [List.filter_cons]

/-- The nodes before a node are those that lead it. -/
theorem leads_iff (hnodup : (s.children parent).Nodup)
    (hsplit : s.children parent = before ++ sibling :: behind) :
    s.Leads parent child sibling ↔ child ∈ before := by
  rw [Leads, hsplit]
  rw [hsplit] at hnodup
  constructor
  · intro hsub
    obtain ⟨front, back, heq, hfront, hback⟩ := List.cons_sublist_iff.mp hsub
    rcases List.append_eq_append_iff.mp heq with
      ⟨_ | ⟨first, rest⟩, hleft, hright⟩ | ⟨rest, hleft, -⟩
    · rwa [hleft, List.append_nil] at hfront
    · -- The sibling would stand on both sides.
      obtain ⟨rfl, -⟩ := List.cons.inj hright
      rw [heq] at hnodup
      refine absurd (List.singleton_sublist.mp hback)
        (List.disjoint_of_nodup_append hnodup ?_)
      simp [hleft]
    · rw [hleft]
      exact List.mem_append_left _ hfront
  · intro hmem
    exact (List.singleton_sublist.mpr hmem).append (List.singleton_sublist.mpr List.mem_cons_self)

theorem leads_asymm (hnodup : (s.children parent).Nodup) (hleads : s.Leads parent left right) :
    ¬ s.Leads parent right left := by
  obtain ⟨before, behind, hsplit⟩ :=
    List.append_of_mem (hleads.subset (List.mem_cons_of_mem _ List.mem_cons_self))
  obtain ⟨first, rest, hbefore⟩ := List.append_of_mem ((leads_iff hnodup hsplit).mp hleads)
  have hsplit' : s.children parent = first ++ left :: (rest ++ right :: behind) := by
    rw [hsplit, hbefore, List.append_assoc]
    rfl
  rw [leads_iff hnodup hsplit']
  intro hright
  rw [hsplit'] at hnodup
  exact List.disjoint_of_nodup_append hnodup hright (by simp)

/-- A child leads another one unless it is the last. -/
theorem exists_leads_iff (hnodup : (s.children parent).Nodup)
    (hsplit : s.children parent = before ++ sibling :: behind) :
    (∃ later, s.Leads parent sibling later) ↔ behind ≠ [] := by
  constructor
  · rintro ⟨later, hleads⟩ rfl
    have hlater : later ∈ before ++ [sibling] :=
      hsplit ▸ hleads.subset (List.mem_cons_of_mem _ List.mem_cons_self)
    rcases List.mem_append.mp hlater with hmem | hmem
    · exact leads_asymm hnodup hleads ((leads_iff hnodup hsplit).mpr hmem)
    · obtain rfl := List.mem_singleton.mp hmem
      exact leads_asymm hnodup hleads hleads
  · intro hbehind
    obtain ⟨later, rest, rfl⟩ := List.exists_cons_of_ne_nil hbehind
    exact ⟨later, (adjoins_of_split hsplit).leads⟩

/-- Only one node stands immediately behind another. -/
theorem Adjoins.unique (hnodup : (s.children parent).Nodup) (h : s.Adjoins parent left right)
    (h' : s.Adjoins parent left id) : right = id := by
  obtain ⟨before, behind, hsplit⟩ := h
  obtain ⟨before', behind', hsplit'⟩ := h'
  rw [← hsplit, List.append_assoc] at hnodup
  rw [← hsplit, List.append_assoc, List.append_assoc] at hsplit'
  have hbefore : left ∉ before := fun hmem =>
    List.disjoint_of_nodup_append hnodup hmem List.mem_cons_self
  have hbehind : left ∉ right :: behind :=
    (List.nodup_cons.mp (List.nodup_append.mp hnodup).2.1).1
  have heq := (List.append_cons_inj_of_notMem hbefore hbehind).mp hsplit'.symm
  exact (List.cons.inj heq.2.2).1

namespace Linked

/-! ### What an insertion leaves -/

/-- What is left of the children around a node when another one is taken away. -/
theorem children_detach_of_split (h : s.Linked) (hne : child ≠ sibling)
    (hsplit : s.children parent = before ++ sibling :: behind) :
    (s.detach child).children parent =
      before.filter (· ≠ child) ++ sibling :: behind.filter (· ≠ child) := by
  have hfilter : (s.detach child).children parent = (s.children parent).filter (· ≠ child) := by
    rw [children_detach]
    split
    · rfl
    · refine (List.filter_eq_self.mpr fun id hid => decide_eq_true ?_).symm
      rintro rfl
      exact absurd (h.parent?_of_mem hid) ‹_›
  rw [hfilter, hsplit, List.filter_append, List.filter_cons_of_pos (by simpa using hne.symm)]

/-- A node goes to a position that was counted before it left its old place. -/
theorem children_insert_of_split (h : s.Linked) (hlt : parent < s.size) (hne : child ≠ sibling)
    (hsplit : s.children parent = before ++ sibling :: behind) (index : Nat) :
    (s.insert parent index child).children parent =
      let ids := before.filter (· ≠ child) ++ sibling :: behind.filter (· ≠ child)
      ids.insertIdx (min index ids.length) child := by
  rw [insert_eq, children_attach hlt, if_pos rfl, h.children_detach_of_split hne hsplit]

theorem nodup_children_insert (h : s.Linked) (hlt : parent < s.size) (index : Nat) :
    ((s.insert parent index child).children parent).Nodup := by
  have hnot : child ∉ (s.detach child).children parent := fun hmem =>
    (h.mem_children_detach.mp hmem).2 rfl
  rw [insert_eq, children_attach hlt, if_pos rfl]
  exact (List.perm_insertIdx child _ (Nat.min_le_right _ _)).nodup_iff.mpr
    (List.nodup_cons.mpr ⟨hnot, h.detach.nodup parent⟩)

theorem insertBefore_eq_insert (h : s.Linked) (hparent : s.parent? sibling = some parent)
    (child : NodeId) :
    ∃ index, s.insertBefore sibling child = s.insert parent index child := by
  obtain ⟨before, behind, hsplit⟩ := List.append_of_mem ((h.linked parent sibling).mpr hparent)
  refine ⟨before.length, ?_⟩
  rw [insertBefore, hparent, h.indexOf?_eq hparent hsplit]

theorem insertAfter_eq_insert (h : s.Linked) (hparent : s.parent? sibling = some parent)
    (child : NodeId) :
    ∃ index, s.insertAfter sibling child = s.insert parent index child := by
  obtain ⟨before, behind, hsplit⟩ := List.append_of_mem ((h.linked parent sibling).mpr hparent)
  refine ⟨before.length + 1, ?_⟩
  rw [insertAfter, hparent, h.indexOf?_eq hparent hsplit]

/-- Before a sibling, a node that led it lands behind it. -/
theorem children_insertBefore (h : s.Linked) (hparent : s.parent? sibling = some parent)
    (hne : child ≠ sibling) (hsplit : s.children parent = before ++ sibling :: behind) :
    (s.insertBefore sibling child).children parent =
      if child ∈ before then before.filter (· ≠ child) ++ sibling :: child :: behind
      else before ++ child :: sibling :: behind.filter (· ≠ child) := by
  have hnodup : (before ++ sibling :: behind).Nodup := hsplit ▸ h.nodup parent
  rw [insertBefore, hparent, h.indexOf?_eq hparent hsplit]
  dsimp only
  rw [h.children_insert_of_split (h.parent_lt hparent) hne hsplit]
  dsimp only
  split
  case isTrue hmem =>
      obtain ⟨hbefore, hbehind⟩ := filter_of_mem hnodup hmem
      rw [hbehind, hbefore, min_eq_left, insertIdx_behind]
      simp only [List.length_append, List.length_cons]
      omega
  case isFalse hmem =>
      rw [filter_of_not_mem hmem, min_eq_left, insertIdx_before]
      simp only [List.length_append]
      omega

/-- Behind a sibling, a node that led it lands one position too far, if there is one. -/
theorem children_insertAfter (h : s.Linked) (hparent : s.parent? sibling = some parent)
    (hne : child ≠ sibling) (hsplit : s.children parent = before ++ sibling :: behind) :
    (s.insertAfter sibling child).children parent =
      if child ∈ before then
        before.filter (· ≠ child) ++ sibling :: behind.take 1 ++ child :: behind.drop 1
      else before ++ sibling :: child :: behind.filter (· ≠ child) := by
  have hnodup : (before ++ sibling :: behind).Nodup := hsplit ▸ h.nodup parent
  rw [insertAfter, hparent, h.indexOf?_eq hparent hsplit]
  dsimp only
  rw [h.children_insert_of_split (h.parent_lt hparent) hne hsplit]
  dsimp only
  split
  case isTrue hmem =>
      obtain ⟨hbefore, hbehind⟩ := filter_of_mem hnodup hmem
      rw [hbehind, hbefore]
      cases behind with
      | nil =>
          rw [min_eq_right (by simp), List.insertIdx_length_self]
          simp
      | cons first rest =>
          have hfront : before.filter (· ≠ child) ++ sibling :: first :: rest =
              (before.filter (· ≠ child) ++ [sibling]) ++ first :: rest := by simp
          have hlength : (before.filter (· ≠ child)).length + 1 =
              (before.filter (· ≠ child) ++ [sibling]).length := by simp
          rw [hfront, hlength, min_eq_left, insertIdx_behind]
          · simp
          · simp only [List.length_append, List.length_cons]
            omega
  case isFalse hmem =>
      rw [filter_of_not_mem hmem, min_eq_left, insertIdx_behind]
      simp only [List.length_append, List.length_cons]
      omega

end Linked

/-- Without a child, all children of a node are as they are without it beforehand. -/
theorem filter_children_insert (index : Nat) (hlt : parent < s.size) :
    ((s.insert parent index child).children id).filter (· ≠ child) =
      (s.children id).filter (· ≠ child) := by
  have hdetach : ((s.detach child).children id).filter (· ≠ child) =
      (s.children id).filter (· ≠ child) := by
    rw [children_detach]
    split
    · simp
    · rfl
  rw [insert_eq, children_attach hlt]
  split
  · rw [filter_insertIdx_self, hdetach]
  · exact hdetach

/-! ### One child moves -/

/-- Only one node has moved: it is below the given parent now, and all other children of every node
keep their order. -/
structure Resettled (s s' : Store) (child parent : NodeId) : Prop where
  settled : s'.parent? child = some parent
  parents : ∀ id, id ≠ child → s'.parent? id = s.parent? id
  order : ∀ id, (s'.children id).filter (· ≠ child) = (s.children id).filter (· ≠ child)
  heads : ∀ id, s'.head id = s.head id

theorem resettled_insert (index : Nat) (hlt : parent < s.size) (hchild : child < s.size) :
    Resettled s (s.insert parent index child) child parent where
  settled := by rw [parent?_insert hchild, if_pos rfl]
  parents id hid := by rw [parent?_insert hchild, if_neg hid]
  order id := filter_children_insert index hlt
  heads id := by rw [insert_eq, head_attach]

namespace Linked

theorem resettled_insertBefore (h : s.Linked) (hparent : s.parent? sibling = some parent)
    (hchild : child < s.size) : Resettled s (s.insertBefore sibling child) child parent := by
  obtain ⟨index, hinsert⟩ := h.insertBefore_eq_insert hparent child
  rw [hinsert]
  exact resettled_insert index (h.parent_lt hparent) hchild

theorem resettled_insertAfter (h : s.Linked) (hparent : s.parent? sibling = some parent)
    (hchild : child < s.size) : Resettled s (s.insertAfter sibling child) child parent := by
  obtain ⟨index, hinsert⟩ := h.insertAfter_eq_insert hparent child
  rw [hinsert]
  exact resettled_insert index (h.parent_lt hparent) hchild

/-- Before a sibling stands the node, unless it led the sibling. -/
theorem adjoins_insertBefore_iff (h : s.Linked) (hparent : s.parent? sibling = some parent)
    (hne : child ≠ sibling) :
    (s.insertBefore sibling child).Adjoins parent child sibling ↔
      ¬ s.Leads parent child sibling := by
  obtain ⟨before, behind, hsplit⟩ := List.append_of_mem ((h.linked parent sibling).mpr hparent)
  have hchildren := h.children_insertBefore hparent hne hsplit
  rw [leads_iff (h.nodup parent) hsplit]
  split at hchildren
  case isTrue hmem =>
      refine iff_of_false (fun hadjoins => ?_) (not_not.mpr hmem)
      have hnodup : ((s.insertBefore sibling child).children parent).Nodup := by
        obtain ⟨index, hinsert⟩ := h.insertBefore_eq_insert hparent child
        rw [hinsert]
        exact h.nodup_children_insert (h.parent_lt hparent) index
      exact leads_asymm hnodup (adjoins_of_split hchildren).leads
        hadjoins.leads
  case isFalse hmem => exact iff_of_true (adjoins_of_split hchildren) hmem

/-- Behind a sibling stands the node, unless it led the sibling and the sibling led another one. -/
theorem adjoins_insertAfter_iff (h : s.Linked) (hparent : s.parent? sibling = some parent)
    (hne : child ≠ sibling) :
    (s.insertAfter sibling child).Adjoins parent sibling child ↔
      ¬ (s.Leads parent child sibling ∧ ∃ later, s.Leads parent sibling later) := by
  obtain ⟨before, behind, hsplit⟩ := List.append_of_mem ((h.linked parent sibling).mpr hparent)
  have hchildren := h.children_insertAfter hparent hne hsplit
  rw [leads_iff (h.nodup parent) hsplit, exists_leads_iff (h.nodup parent) hsplit]
  split at hchildren
  case isFalse hmem => exact iff_of_true (adjoins_of_split hchildren) fun hboth => hmem hboth.1
  case isTrue hmem =>
      cases behind with
      | nil =>
          have hlast : (s.insertAfter sibling child).children parent =
              before.filter (· ≠ child) ++ sibling :: child :: [] := by
            rw [hchildren]
            simp
          exact iff_of_true (adjoins_of_split hlast) fun hboth => hboth.2 rfl
      | cons later rest =>
          refine iff_of_false (fun hadjoins => ?_) (not_not.mpr ⟨hmem, List.cons_ne_nil _ _⟩)
          have hlater : (s.insertAfter sibling child).Adjoins parent sibling later :=
            adjoins_of_split (hchildren.trans (List.append_assoc _ _ _))
          have hnodup : (before ++ sibling :: later :: rest).Nodup := hsplit ▸ h.nodup parent
          have hnodup' : ((s.insertAfter sibling child).children parent).Nodup := by
            obtain ⟨index, hinsert⟩ := h.insertAfter_eq_insert hparent child
            rw [hinsert]
            exact h.nodup_children_insert (h.parent_lt hparent) index
          obtain rfl := hadjoins.unique hnodup' hlater
          exact List.disjoint_of_nodup_append hnodup hmem (by simp)

end Linked

/-- Insertion next to a sibling moves one node only, and the node stands on the given side of the
sibling, unless it stood before the sibling already: then it stands behind the sibling when it should
stand before it, and behind the next child when it should stand behind the sibling. -/
theorem siblings_insert (h : s.Linked) (hparent : s.parent? sibling = some parent)
    (hchild : child < s.size) (hne : child ≠ sibling) :
    (Resettled s (s.insertBefore sibling child) child parent ∧
      ((s.insertBefore sibling child).Adjoins parent child sibling ↔
        ¬ s.Leads parent child sibling)) ∧
    Resettled s (s.insertAfter sibling child) child parent ∧
      ((s.insertAfter sibling child).Adjoins parent sibling child ↔
        ¬ (s.Leads parent child sibling ∧ ∃ later, s.Leads parent sibling later)) :=
  ⟨⟨h.resettled_insertBefore hparent hchild, h.adjoins_insertBefore_iff hparent hne⟩,
    h.resettled_insertAfter hparent hchild, h.adjoins_insertAfter_iff hparent hne⟩

/-- A script of three empty statements and a block with one more. -/
def threeAndBlockTree : Tree :=
  let leaf : Tree := .node { kind := .semicolon, span := default } []
  .node { kind := .script, span := default }
    [leaf, leaf, leaf, .node { kind := .block, span := default } [leaf]]

def threeAndBlock : Store := .ofTree threeAndBlockTree

theorem siblings_insert_threeAndBlock :
    threeAndBlock.Linked ∧ threeAndBlock.parent? 2 = some 0 ∧ 5 < threeAndBlock.size ∧ 5 ≠ 2 ∧
      threeAndBlock.parent? 5 = some 4 ∧ (threeAndBlock.insertBefore 2 5).Adjoins 0 5 2 ∧
      (threeAndBlock.insertAfter 2 5).Adjoins 0 2 5 := by
  have hlinked : threeAndBlock.Linked := linked_ofTree threeAndBlockTree
  have hparent : threeAndBlock.parent? 2 = some 0 := by decide
  have hlt : 5 < threeAndBlock.size := by decide
  obtain ⟨⟨-, hbefore⟩, -, hbehind⟩ := siblings_insert hlinked hparent hlt (by decide)
  have hleads : ¬ threeAndBlock.Leads 0 5 2 := by decide
  exact ⟨hlinked, hparent, hlt, by decide, by decide, hbefore.mpr hleads,
    hbehind.mpr fun hboth => hleads hboth.1⟩

/-- The first of three statements that is put before the third one lands behind it. -/
theorem not_forall_adjoins_insertBefore :
    ¬ ∀ (s : Store) (parent sibling child : NodeId), s.Forest → s.parent? sibling = some parent →
      child < s.size → child ≠ sibling → ¬ s.Within sibling child →
      (s.insertBefore sibling child).Adjoins parent child sibling := by
  intro hall
  have hnot : ¬ threeAndBlock.Within 3 1 := by
    intro hwithin
    obtain ⟨p, hp, hwithin⟩ := hwithin.cases.resolve_left (by decide)
    have hroot : threeAndBlock.parent? 3 = some 0 := by decide
    obtain rfl : 0 = p := by simpa using hroot.symm.trans hp
    obtain ⟨p, hp, -⟩ := hwithin.cases.resolve_left (by decide)
    rw [show threeAndBlock.parent? 0 = none by decide] at hp
    cases hp
  have hadjoins := hall threeAndBlock 0 3 1 (forest_ofTree threeAndBlockTree) (by decide)
    (by decide) (by decide) hnot
  exact absurd hadjoins (by decide)

end ScriptMin.Store
