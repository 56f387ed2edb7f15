import ScriptMin.Proofs.Pass.Following
import ScriptMin.Proofs.Store.Graft
import ScriptMin.Proofs.Store.Replacement

/-!
Edits of sound stores. Sound stores stay sound throughout: whatever an edit does evolves the store
it starts from.
-/

namespace ScriptMin

open Store

variable {α β : Type} {s s' : Store} {id old new block anchor child : NodeId}

/-! ### Edits that keep stores sound -/

/-- An edit evolves the store it starts from. -/
def Edit.Keeps (m : Edit α) (s : Store) : Prop := Edit.Gives m s fun _ s' => s.Evolves s'

namespace Edit

/-- What follows an edit that keeps the store starts from a store that has evolved. -/
theorem Keeps.bind {m : Edit α} {f : α → Edit β} (h : Keeps m s)
    (hf : ∀ a s', s.Evolves s' → Keeps (f a) s') : Keeps (m >>= f) s := by
  rw [Keeps, gives_bind]
  exact Gives.mono h fun a s' hs => (hf a s' hs).mono fun _ _ hs' => hs.trans hs'

theorem keeps_pure (h : s.Sound) {a : α} : Keeps (pure a : Edit α) s := .refl h

/-- A sweep keeps the store if the edit of every item does, whatever has become of the store. -/
theorem keeps_sweep {edit : α → Edit Bool} {items : List α} (h : s.Sound)
    (hedit : ∀ item ∈ items, ∀ s', s.Evolves s' → Keeps (edit item) s') :
    Keeps (sweep edit items) s := by
  induction items generalizing s with
  | nil => exact keeps_pure h
  | cons item rest ih =>
      refine (hedit item List.mem_cons_self s (.refl h)).bind fun changed s' hs => ?_
      refine Keeps.bind (ih hs.sound ?_) fun more s'' hs' => keeps_pure hs'.sound
      intro item hitem s'' hs'
      exact hedit item (List.mem_cons_of_mem _ hitem) s'' (hs.trans hs')

end Edit

/-! ### Statements -/

namespace Store

theorem kind_add (head : Head) : (s.add head).2.kind s.size = head.kind := by
  rw [kind, head_add, if_pos rfl]

/-- What is known of a node that has just been added. -/
theorem evolves_of_add {head : Head} (h : s.Sound) (hhead : head.Complete)
    (hadd : s.add head = (new, s')) :
    s.Evolves s' ∧ s'.Portable new ∧ s'.kind new = head.kind ∧ s'.parent? new = none ∧
      ∀ id < s.size, s'.head id = s.head id := by
  obtain ⟨rfl, rfl⟩ := Prod.mk.inj hadd
  refine ⟨evolves_add h hhead, portable_add h hhead, kind_add head, ?_, ?_⟩
  · exact (parent?_add head).trans (parent?_of_size_le (Nat.le_refl _))
  · intro id hid
    exact (head_add head).trans (if_neg (Nat.ne_of_lt hid))

theorem Sound.portable_of_child? (h : s.Sound) {role : Role} (hc : s.child? id role = some child) :
    s.Portable child :=
  h.portable_of_role (mem_of_child? hc) (role?_of_child? hc)

/-- The expression of an expression statement is in its role there. -/
theorem kind_role_of_expressionOf? (h : s.expressionOf? id = some child) :
    s.kind id = .semicolon ∧ s.child? id .expression = some child := by
  rw [expressionOf?] at h
  split at h
  · exact ⟨‹_›, h⟩
  · cases h

theorem kind_of_expressionOf? (h : s.expressionOf? id = some child) : s.kind id = .semicolon :=
  (kind_role_of_expressionOf? h).1

theorem role?_of_expressionOf? (h : s.expressionOf? id = some child) :
    s.role? child = some .expression :=
  role?_of_child? (kind_role_of_expressionOf? h).2

theorem Sound.portable_of_expressionOf? (h : s.Sound) (hc : s.expressionOf? id = some child) :
    s.Portable child :=
  h.portable_of_child? (kind_role_of_expressionOf? hc).2

/-- A statement is removed, or replaced by the empty one. -/
theorem evolves_removeStatement (h : s.Sound) (hkind : (s.kind id).isPlaced = false)
    (hform : s.kind id = .function → (s.head id).form ≠ some .expressed)
    (hblock : s.kind id ≠ .block) :
    s.Evolves (s.removeStatement id) := by
  rw [removeStatement]
  split
  · exact evolves_remove h (h.portable_of_kind hkind).not_key
  · have hhead : ({ kind := .semicolon, span := s.span id } : Head).Complete :=
      Head.complete_of_kind (by simp) (by simp) rfl rfl
    have hlt := (h.portable_of_kind hkind).lt
    have hadd := evolves_add h hhead
    refine hadd.trans (evolves_replace_of_kind hadd.sound ?_ ?_ ?_ (portable_add h hhead))
    · rwa [hadd.kind_eq id hlt]
    · rw [hadd.kind_eq id hlt, head_add, if_neg (Nat.ne_of_lt hlt)]
      exact hform
    · rw [hadd.kind_eq id hlt]
      exact fun heq => absurd heq hblock

/-- The parent of a node, if it has one, is a list of statements. -/
def Listed (s : Store) (id : NodeId) : Prop :=
  ∀ p, s.parent? id = some p → (s.kind p).isStatementList

theorem listed_of_inStatementList (h : s.inStatementList id) : s.Listed id := by
  intro p hp
  rw [inStatementList, parentKind?, hp] at h
  exact h

theorem not_isRigid_of_isStatementList {kind : Kind}
    (h : kind.isStatementList) : kind.isRigid = false := by
  cases kind <;> first | rfl | cases h

/-- A node moves to the list of statements that another one stands in. -/
theorem evolves_insert_listed (h : s.Sound) (hanchor : s.Listed anchor) (hchild : s.Portable child)
    {p : NodeId} (hp : s.parent? anchor = some p) (index : Nat) :
    s.Evolves (s.insert p index child) ∧
      ∀ other, s.Listed other → (s.insert p index child).Listed other := by
  have hlt := h.parent_lt hp
  have hrigid := not_isRigid_of_isStatementList (hanchor p hp)
  have hinsert := evolves_insert h index hrigid hlt hchild
  refine ⟨hinsert, fun other hother q hq => ?_⟩
  rw [parent?_insert hchild.lt] at hq
  split at hq
  · rw [← Option.some_inj.mp hq, hinsert.kind_eq p hlt]
    exact hanchor p hp
  · rw [hinsert.kind_eq q (h.parent_lt hq)]
    exact hother q hq

theorem evolves_insertBefore (h : s.Sound) (hanchor : s.Listed anchor) (hchild : s.Portable child) :
    s.Evolves (s.insertBefore anchor child) ∧
      ∀ other, s.Listed other → (s.insertBefore anchor child).Listed other := by
  rw [insertBefore]
  split
  · exact evolves_insert_listed h hanchor hchild ‹_› _
  · exact ⟨.refl h, fun _ => id⟩

/-- A node is put behind one in a list of statements, and stands in that list then. -/
theorem evolves_insertAfter_of_inStatementList (h : s.Sound) (hanchor : s.inStatementList anchor)
    (hchild : s.Portable child) :
    s.Evolves (s.insertAfter anchor child) ∧ (s.insertAfter anchor child).inStatementList child := by
  have hlisted := listed_of_inStatementList hanchor
  cases hp : s.parent? anchor with
  | none =>
      rw [inStatementList, parentKind?, hp] at hanchor
      cases hanchor
  | some p =>
      have hindex : (s.indexOf? anchor).isSome := by
        simp only [indexOf?, hp, Option.bind_eq_bind, Option.bind_some, List.findIdx?_isSome]
        exact List.any_eq_true.mpr ⟨anchor, (h.linked p anchor).mpr hp, beq_self_eq_true _⟩
      obtain ⟨index, hindex⟩ := Option.isSome_iff_exists.mp hindex
      have hinsert := (evolves_insert_listed h hlisted hchild hp (index + 1)).1
      simp only [insertAfter, hp, hindex]
      refine ⟨hinsert, ?_⟩
      rw [inStatementList, parentKind?, parent?_insert hchild.lt, if_pos rfl, Option.map_some,
        hinsert.kind_eq p (h.parent_lt hp)]
      exact hlisted p hp

theorem Listed.not_readsRoles (h : s.Listed id) :
    ∀ p, s.parent? id = some p → (s.kind p).readsRoles = false :=
  fun p hp => Kind.not_readsRoles_of_not_isRigid (not_isRigid_of_isStatementList (h p hp))

theorem Listed.setRole (h : s.Listed id) (role : Option Role) :
    (s.setRole child role).Listed id := by
  intro p hp
  rw [parent?_setRole] at hp
  have hkind : (s.setRole child role).kind p = s.kind p := by
    rw [kind, Store.setRole, head_modifyHead]
    split <;> rfl
  rw [hkind]
  exact h p hp

theorem Listed.remove (h : s.Listed id) : (s.remove child).Listed id := by
  refine Listed.setRole (fun p hp => ?_) none
  rw [parent?_detach] at hp
  split at hp
  · cases hp
  · rw [kind, head_detach]
    exact h p hp

/-- Edits of one node after the other. -/
theorem evolves_foldl (f : Store → NodeId → Store) (ids : List NodeId) (h : s.Sound)
    (hf : ∀ id ∈ ids, ∀ s', s.Evolves s' → s'.Evolves (f s' id)) : s.Evolves (ids.foldl f s) := by
  induction ids generalizing s with
  | nil => exact .refl h
  | cons id rest ih =>
      have hfirst := hf id List.mem_cons_self s (.refl h)
      refine hfirst.trans (ih hfirst.sound fun other hother s' hs => ?_)
      exact hf other (List.mem_cons_of_mem _ hother) s' (hfirst.trans hs)

theorem evolves_foldl_insertBefore {ids : List NodeId} (h : s.Sound) (hanchor : s.Listed anchor)
    (hids : ∀ id ∈ ids, s.Portable id) :
    s.Evolves (ids.foldl (fun s id => s.insertBefore anchor id) s) ∧
      ∀ other, s.Listed other → (ids.foldl (fun s id => s.insertBefore anchor id) s).Listed other := by
  induction ids generalizing s with
  | nil => exact ⟨.refl h, fun _ => id⟩
  | cons id rest ih =>
      obtain ⟨hinsert, hlisted⟩ := evolves_insertBefore h hanchor (hids id List.mem_cons_self)
      obtain ⟨hrest, hlisted'⟩ := ih hinsert.sound (hlisted anchor hanchor) fun other hother =>
        (hids other (List.mem_cons_of_mem _ hother)).of_evolves hinsert
      exact ⟨hinsert.trans hrest, fun other hother => hlisted' other (hlisted other hother)⟩

/-- The statements of a block move to the place of a statement. -/
theorem evolves_spliceBefore (h : s.Sound) (hlisted : s.Listed anchor) (hanchor : s.Portable anchor)
    (hblock : s.kind block ≠ .propertyInit) :
    s.Evolves (s.spliceBefore block anchor) ∧
      ∀ other, s.Listed other → (s.spliceBefore block anchor).Listed other := by
  obtain ⟨hmoved, hkept⟩ := evolves_foldl_insertBefore h hlisted
    fun id hid => h.portable_of_mem hid hblock
  exact ⟨hmoved.trans (evolves_remove hmoved.sound (hanchor.of_evolves hmoved).not_key),
    fun other hother => (hkept other hother).remove⟩

/-- A statement takes the place of another one. -/
theorem evolves_replaceStatement (h : s.Sound) (hkind : (s.kind old).isPlaced = false)
    (hform : s.kind old = .function → (s.head old).form ≠ some .expressed)
    (hblock : s.kind old ≠ .block) (hnew : s.Portable new) :
    s.Evolves (s.replaceStatement old new) := by
  rw [replaceStatement]
  split
  case isTrue hcase =>
      simp only [Bool.and_eq_true, beq_iff_eq] at hcase
      refine (evolves_spliceBefore h (listed_of_inStatementList hcase.1.1)
        (h.portable_of_kind hkind) ?_).1
      rw [hcase.1.2]
      simp
  case isFalse => exact evolves_replace_of_kind h hkind hform (fun heq => absurd heq hblock) hnew

/-- A node is put below a new one whose kind asks for nothing. -/
theorem evolves_appendAs (h : s.Sound) {parent : NodeId} (role : Role)
    (hrole : role ≠ .params ∧ role ≠ .statements)
    (hparent : (s.kind parent).isRigid = false) (hlt : parent < s.size)
    (hchild : s.Portable child) : s.Evolves (s.appendAs parent role child) :=
  evolves_append_setRole h (by simpa using hrole) hparent hlt hchild

/-- An expression becomes a statement of its own. -/
theorem evolves_of_wrapExpression (h : s.Sound) (hid : s.Portable id)
    (hwrap : s.wrapExpression id = (new, s')) :
    s.Evolves s' ∧ s'.Portable new := by
  rcases hadd : s.add { kind := .semicolon, span := s.span id } with ⟨statement, s₁⟩
  obtain ⟨hs, hnew, hkind, -⟩ :=
    evolves_of_add h (Head.complete_of_kind (by simp) (by simp) rfl rfl) hadd
  have happend := evolves_appendAs hs.sound .expression (by simp) (by rw [hkind]; rfl) hnew.lt
    (hid.of_evolves hs)
  rw [wrapExpression, hadd] at hwrap
  obtain ⟨rfl, rfl⟩ := Prod.mk.inj hwrap
  exact ⟨hs.trans happend, hnew.of_evolves happend⟩

end Store

end ScriptMin
