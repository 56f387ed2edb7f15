import ScriptMin.Proofs.Store.Evolution

/-!
Replacing nodes and moving all children of a node. Whatever takes the place of a node gets its
role; where the kind of the parent asks for more than a role, the kind of the node that is
replaced has to rule that place out.
-/

namespace ScriptMin.Store

variable {s s' : Store} {id parent child old new : NodeId}

/-! ### Replacing a node -/

/-- Where a node stands, any other one can stand in its role. -/
def Free (s : Store) (id : NodeId) : Prop :=
  (∀ p, s.parent? id = some p → (s.kind p).isRigid = false) ∨
    (s.kind id).isPlaced = false ∧ (s.kind id = .function → (s.head id).form ≠ some .expressed)

theorem Sound.free_hosts (h : s.Sound) (hfree : s.Free old) {i : Nat} {c : Head}
    (hold : (s.children parent)[i]? = some old) (hrole : c.role = s.role? old) :
    (s.head parent).Hosts i c := by
  rcases hfree with hflexible | ⟨hplaced, hform⟩
  · exact .of_not_isRigid (hflexible parent (h.parent?_of_mem (List.mem_of_getElem? hold)))
  · exact ((h.formed parent).hosts i old hold).replaced hplaced hform hrole

theorem Free.not_inPattern (hfree : s.Free old) (hparent : s.parent? old = some parent)
    (hrigid : (s.kind parent).isRigid) : (s.kind old).inPattern = false := by
  rcases hfree with hflexible | ⟨hplaced, -⟩
  · rw [hflexible parent hparent] at hrigid
    cases hrigid
  · cases hpattern : (s.kind old).inPattern with
    | true => rw [Kind.isPlaced_of_inPattern hpattern] at hplaced; cases hplaced
    | false => rfl

theorem evolves_swap (h : s.Sound) (hfree : s.Free old) (hold : s.parent? old = some parent)
    (hnew : s.parent? new = none) (hlt : new < s.size) (hroot : new ≠ s.root)
    (hrole : s.role? new = s.role? old) : s.Evolves (s.swap parent old new) := by
  have hne : old ≠ new := by
    rintro rfl
    rw [hold] at hnew
    cases hnew
  have hparentLt := h.parent_lt hold
  have hmem := (h.linked parent old).mpr hold
  have hnone : ∀ p, new ∉ s.children p := by
    intro p hp
    rw [h.parent?_of_mem hp] at hnew
    cases hnew
  have hchildren : ∀ id, (s.swap parent old new).children id =
      if id = parent then (s.children id).map fun c => if c = old then new else c
      else s.children id :=
    fun _ => children_swap hparentLt (h.nodup parent)
  have hparents : ∀ id, (s.swap parent old new).parent? id =
      if id = new then some parent else if id = old then none else s.parent? id :=
    fun _ => parent?_swap (parent?_lt hold) hlt
  have hkind : ∀ id, (s.swap parent old new).kind id = s.kind id := by
    intro id
    rw [kind, head_swap]
    rfl
  have hrole' : ∀ c, s.role? (if c = old then new else c) = s.role? c := by
    intro c
    split
    case isTrue heq => rw [hrole, heq]
    case isFalse => rfl
  -- A node of a pattern whose children are in it as well does not lose one.
  have hpattern : ∀ id, (s.kind id).inPattern → (∀ c ∈ s.children id, (s.kind c).inPattern) →
      List.Sublist ((s.swap parent old new).children id) (s.children id) := by
    intro id hid hin
    rw [hchildren, if_neg]
    rintro rfl
    have := hin old hmem
    rw [hfree.not_inPattern hold (Kind.isRigid_of_inPattern hid)] at this
    cases this
  refine ⟨⟨h.toLinked.swap hold hnew hlt hroot, ?_, ?_, ?_⟩, size_swap.ge, rfl,
    fun id _ => hkind id, ?_⟩
  · exact (hkind _).trans h.root_kind
  · intro id
    have hid := h.formed id
    refine ⟨by rw [head_swap]; exact hid.complete, ?_, ?_, ?_⟩
    · intro i c hc
      rw [head_swap, head_swap]
      rw [hchildren] at hc
      split at hc
      · rw [List.getElem?_map, Option.map_eq_some_iff] at hc
        obtain ⟨d, hd, rfl⟩ := hc
        split
        case isTrue heq =>
            subst heq
            exact h.free_hosts hfree hd hrole
        case isFalse => exact hid.hosts i d hd
      · exact hid.hosts i c hc
    · intro hroles
      rw [hkind] at hroles
      have hroleEq : (s.swap parent old new).role? = s.role? := by
        funext c
        rw [role?, head_swap]
        rfl
      rw [hchildren, hroleEq]
      split
      · rw [List.pairwise_map]
        refine (hid.roles hroles).imp fun hne' => ?_
        rwa [hrole', hrole']
      · exact hid.roles hroles
    · intro c hc hbinds
      rw [head_swap, head_swap] at hbinds
      suffices hc' : c ∈ s.children id by
        exact (hid.patterns c hc' hbinds).of_sublist h (fun id _ => hkind id) hpattern
      rw [hchildren] at hc
      split at hc
      case isFalse => exact hc
      case isTrue heq =>
          subst heq
          rw [List.mem_map] at hc
          obtain ⟨d, hd, rfl⟩ := hc
          split at hbinds
          case isFalse hd' => rwa [if_neg hd']
          case isTrue hd' =>
              -- The node in the place of a pattern would be one.
              subst hd'
              rw [Head.binds_congr rfl rfl (c := s.head d) hrole] at hbinds
              have hrigid : (s.kind id).isRigid := by
                cases hrigid : (s.kind id).isRigid with
                | true => rfl
                | false => rw [Head.binds_of_not_isRigid hrigid] at hbinds; cases hbinds
              have := (hid.patterns d hd hbinds).inPattern
              rw [hfree.not_inPattern hold hrigid] at this
              cases this
  · intro id hid
    rw [scope?_swap] at hid
    exact (h.owner_of_scope? id hid).of_eq rfl (hkind id)
  · rintro id - ⟨property, hproperty, hfirst⟩
    rw [hkind] at hproperty
    rw [hchildren] at hfirst
    split at hfirst
    case isFalse => exact ⟨property, hproperty, hfirst⟩
    case isTrue heq =>
        subst heq
        rw [List.getElem?_map, Option.map_eq_some_iff] at hfirst
        obtain ⟨d, hd, rfl⟩ := hfirst
        refine ⟨property, hproperty, ?_⟩
        split
        case isFalse => exact hd
        case isTrue heq =>
            subst heq
            have hkey := Kind.inPattern_of_isKey (h.isKey_kind ⟨property, hproperty, hd⟩)
            rw [hfree.not_inPattern hold (by rw [hproperty]; rfl)] at hkey
            cases hkey

theorem role?_setRole (hid : id < s.size) (role : Option Role) :
    (s.setRole id role).role? id = role := by
  rw [role?, setRole, head_modifyHead, if_pos ⟨rfl, hid⟩]

theorem role?_setRole_of_ne (hne : old ≠ id) (role : Option Role) :
    (s.setRole id role).role? old = s.role? old := by
  rw [role?, setRole, head_modifyHead, if_neg fun h => hne h.1]
  rfl

/-- What is neither a list of parameters nor the statements of a clause is in no role that asks for
a kind. -/
theorem Sound.free_role (h : s.Sound) (hkind : s.kind old ≠ .list)
    (hblock : s.kind old = .block → s.role? old ≠ some .statements) :
    s.role? old ≠ some .params ∧ s.role? old ≠ some .statements :=
  ⟨fun hrole => hkind ((h.formed old).complete.params hrole),
    fun hrole => hblock ((h.formed old).complete.statements hrole) hrole⟩

/-- A node takes the place of another one. -/
theorem evolves_replace (h : s.Sound) (hfree : s.Free old)
    (hasked : s.role? old ≠ some .params ∧ s.role? old ≠ some .statements)
    (hold : old ≠ s.root) (hnew : s.Portable new) : s.Evolves (s.replace old new) := by
  obtain ⟨hlt, hroot, hkey⟩ := hnew
  by_cases hne : old = new
  · rw [replace, if_pos hne]
    exact .refl h
  rw [replace_eq hne]
  have hdetach := evolves_detach h hkey
  have hnone : (s.detach new).parent? new = none := by rw [parent?_detach, if_pos rfl]
  have hrole : (s.detach new).Evolves ((s.detach new).setRole new (s.role? old)) := by
    refine evolves_setRole hdetach.sound hasked ?_
    intro p hp
    rw [hnone] at hp
    cases hp
  have hboth := hdetach.trans hrole
  have hparent : ((s.detach new).setRole new (s.role? old)).parent? old = s.parent? old := by
    rw [setRole, parent?_modifyHead, parent?_detach, if_neg hne]
  refine hboth.trans ?_
  simp only [hparent]
  cases hcase : s.parent? old with
  | none =>
      rw [if_neg]
      · exact .refl hboth.sound
      · intro hchosen
        refine hold ?_
        rw [← hboth.root_eq, root, hchosen]
        rfl
  | some parent =>
      have hlt' : new < (s.detach new).size := by rwa [size_detach]
      refine evolves_swap hboth.sound ?_ (hparent.trans hcase) ?_ (hboth.lt hlt) ?_ ?_
      · -- The node in the place has not changed.
        have holdLt := parent?_lt hcase
        rcases hfree with hflexible | ⟨hplaced, hform⟩
        · refine .inl fun p hp => ?_
          rw [hparent] at hp
          rw [hboth.kind_eq p (h.parent_lt hp)]
          exact hflexible p hp
        · refine .inr ?_
          rw [hboth.kind_eq old holdLt]
          refine ⟨hplaced, fun hfunction => ?_⟩
          rw [setRole, head_modifyHead, if_neg fun h => hne h.1, head_detach]
          exact hform hfunction
      · rw [setRole, parent?_modifyHead, hnone]
      · rwa [hboth.root_eq]
      · rw [role?_setRole hlt', role?_setRole_of_ne hne, role?_detach]

/-- A node of a kind that stands in no place of its own is replaced. -/
theorem evolves_replace_of_kind (h : s.Sound) (hkind : (s.kind old).isPlaced = false)
    (hform : s.kind old = .function → (s.head old).form ≠ some .expressed)
    (hblock : s.kind old = .block → s.role? old ≠ some .statements)
    (hnew : s.Portable new) : s.Evolves (s.replace old new) := by
  refine evolves_replace h (.inr ⟨hkind, hform⟩) (h.free_role ?_ hblock)
    (h.portable_of_kind hkind).ne_root hnew
  intro hlist
  rw [hlist] at hkind
  cases hkind

/-- A node that is not a key can be taken out of its place and its role. -/
theorem evolves_remove (h : s.Sound) (hkey : ¬ s.IsKey id) : s.Evolves (s.remove id) := by
  have hdetach := evolves_detach h hkey
  refine hdetach.trans (evolves_setRole hdetach.sound (by simp) ?_)
  intro p hp
  rw [parent?_detach, if_pos rfl] at hp
  cases hp

/-- A node becomes the last child of one whose kind asks for nothing, in any role. -/
theorem evolves_append_setRole (h : s.Sound) {role : Option Role}
    (hrole : role ≠ some .params ∧ role ≠ some .statements)
    (hparent : (s.kind parent).isRigid = false) (hlt : parent < s.size)
    (hchild : s.Portable child) : s.Evolves ((s.append parent child).setRole child role) := by
  have happend := evolves_append h hparent hlt hchild
  refine happend.trans (evolves_setRole happend.sound hrole ?_)
  intro p hp
  rw [parent?_append hchild.lt, if_pos rfl, Option.some_inj] at hp
  subst hp
  rw [happend.kind_eq _ hlt]
  exact Kind.not_readsRoles_of_not_isRigid hparent

/-! ### Moving children -/

/-- All children of a node move to another one; the kinds of both ask for nothing. -/
theorem evolves_moveChildren (h : s.Sound) {source target : NodeId}
    (hsource : (s.kind source).isRigid = false) (htarget : (s.kind target).isRigid = false)
    (hlt : target < s.size) : s.Evolves (s.moveChildren source target) := by
  have hroot : (s.moveChildren source target).root = s.root := by
    rw [root, root, chosenRoot_moveChildren]
  have hkind : ∀ id, (s.moveChildren source target).kind id = s.kind id := by
    intro id
    rw [kind, head_moveChildren]
    rfl
  have hrigid : ∀ id, (s.kind id).isRigid →
      (s.moveChildren source target).children id = s.children id := by
    intro id hid
    rw [children_moveChildren hlt, if_neg, if_neg]
    · rintro rfl
      rw [hsource] at hid
      cases hid
    · rintro rfl
      rw [htarget] at hid
      cases hid
  refine ⟨⟨h.toLinked.moveChildren hlt, ?_, ?_, ?_⟩, size_moveChildren.ge, hroot,
    fun id _ => hkind id, fun id _ => isKey_of_flexible hkind hrigid⟩
  · rw [hroot, hkind]
    exact h.root_kind
  · exact fun id => Formed.of_flexible h (fun _ => head_moveChildren) hrigid
  · intro id hid
    rw [scope?_moveChildren] at hid
    exact (h.owner_of_scope? id hid).of_eq hroot (hkind id)

end ScriptMin.Store
