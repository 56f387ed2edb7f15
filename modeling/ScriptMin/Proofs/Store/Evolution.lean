import Mathlib.Data.List.Nodup
import Mathlib.Order.Nat
import ScriptMin.Proofs.Store.Sound

/-!
What becomes of sound stores. An edit keeps a store sound and the nodes that it has: their
kinds stay, and no node turns into the key of a property. Every edit that passes are made of
has a lemma that says what it has to respect; edits one after the other are composed by
transitivity.
-/

namespace ScriptMin.Store

variable {s s' s'' : Store} {id parent child old new : NodeId}

/-- A store is sound and has the nodes of an earlier one. -/
structure Evolves (s s' : Store) : Prop where
  sound : s'.Sound
  size_le : s.size ≤ s'.size
  root_eq : s'.root = s.root
  kind_eq : ∀ id < s.size, s'.kind id = s.kind id
  isKey : ∀ id < s.size, s'.IsKey id → s.IsKey id

namespace Evolves

theorem refl (h : s.Sound) : s.Evolves s :=
  ⟨h, Nat.le_refl _, rfl, fun _ _ => rfl, fun _ _ => id⟩

theorem trans (h : s.Evolves s') (h' : s'.Evolves s'') : s.Evolves s'' where
  sound := h'.sound
  size_le := h.size_le.trans h'.size_le
  root_eq := h'.root_eq.trans h.root_eq
  kind_eq id hid := (h'.kind_eq id (hid.trans_le h.size_le)).trans (h.kind_eq id hid)
  isKey id hid hkey := h.isKey id hid (h'.isKey id (hid.trans_le h.size_le) hkey)

theorem lt (h : s.Evolves s') (hid : id < s.size) : id < s'.size := hid.trans_le h.size_le

end Evolves

/-- A node can be put somewhere else: it is neither the root nor the key of a property. -/
structure Portable (s : Store) (id : NodeId) : Prop where
  lt : id < s.size
  ne_root : id ≠ s.root
  not_key : ¬ s.IsKey id

theorem Portable.of_evolves (h : s.Portable id) (hs : s.Evolves s') : s'.Portable id where
  lt := hs.lt h.lt
  ne_root := by rw [hs.root_eq]; exact h.ne_root
  not_key hkey := h.not_key (hs.isKey id h.lt hkey)

theorem Sound.portable_of_mem (h : s.Sound) (hc : child ∈ s.children id)
    (hkind : s.kind id ≠ .propertyInit) : s.Portable child where
  lt := h.child_lt hc
  ne_root := h.ne_root (h.parent?_of_mem hc)
  not_key := by
    rintro ⟨property, hproperty, hfirst⟩
    have hparent := h.parent?_of_mem (List.mem_of_getElem? hfirst)
    rw [h.parent?_of_mem hc, Option.some_inj] at hparent
    exact hkind (hparent ▸ hproperty)

/-- A node in a role is not the key of a property. -/
theorem Sound.portable_of_role (h : s.Sound) (hc : child ∈ s.children id) {role : Role}
    (hrole : s.role? child = some role) : s.Portable child where
  lt := h.child_lt hc
  ne_root := h.ne_root (h.parent?_of_mem hc)
  not_key hkey := by
    rw [h.isKey_role hkey] at hrole
    cases hrole

theorem Sound.portable_of_parent (h : s.Sound) (hlt : id < s.size) (hparent : s.parent? id = none)
    (hroot : id ≠ s.root) : s.Portable id where
  lt := hlt
  ne_root := hroot
  not_key := by
    rintro ⟨property, -, hfirst⟩
    rw [h.parent?_of_mem (List.mem_of_getElem? hfirst)] at hparent
    cases hparent

theorem Sound.portable_of_kind (h : s.Sound) (hkind : (s.kind id).isPlaced = false) :
    s.Portable id := by
  have hscript : s.kind id ≠ .script := by
    intro hscript
    rw [hscript] at hkind
    cases hkind
  refine ⟨lt_of_kind hscript, h.ne_root_of_kind hscript, fun hkey => ?_⟩
  rw [Kind.isPlaced_of_inPattern (Kind.inPattern_of_isKey (h.isKey_kind hkey))] at hkind
  cases hkind

/-! ### Heads -/

/-- Stores with the same links and with heads that agree in what soundness depends on. -/
theorem Sound.of_heads (h : s.Sound) (hsize : s'.size = s.size) (hroot : s'.root = s.root)
    (hchildren : ∀ id, s'.children id = s.children id)
    (hparent : ∀ id, s'.parent? id = s.parent? id)
    (hkind : ∀ id, s'.kind id = s.kind id) (hrole : ∀ id, s'.role? id = s.role? id)
    (hform : ∀ id, (s'.head id).form = (s.head id).form)
    (htext : ∀ id, s.kind id = .declaration → s.text? id = none → s'.text? id = none)
    (hcomplete : ∀ id, (s'.head id).Complete)
    (hscope : ∀ id, s'.scope? id ≠ none → s.scope? id ≠ none ∨ s.Owner id) : s'.Sound where
  toLinked := h.toLinked.of_eq hsize hroot hchildren hparent
  root_kind := by rw [hroot, hkind]; exact h.root_kind
  owner_of_scope? id hid :=
    ((hscope id hid).elim (h.owner_of_scope? id) fun howner => howner).of_eq hroot (hkind id)
  formed id :=
    { complete := hcomplete id
      hosts := by
        intro i c hc
        rw [hchildren] at hc
        exact ((h.formed id).hosts i c hc).congr (hkind id) (htext id) (hkind c) (hrole c)
          (hform c)
      roles := by
        intro hroles
        rw [hkind] at hroles
        rw [hchildren]
        exact ((h.formed id).roles hroles).imp fun hne => by rwa [hrole, hrole]
      patterns := by
        intro c hc hbinds
        rw [hchildren] at hc
        rw [Head.binds_congr (hkind id) (hrole id) (hrole c)] at hbinds
        refine ((h.formed id).patterns c hc hbinds).of_sublist h (fun id _ => hkind id) ?_
        intro id _ _
        rw [hchildren] }

theorem Evolves.of_heads (h : s.Sound) (hsize : s'.size = s.size) (hroot : s'.root = s.root)
    (hchildren : ∀ id, s'.children id = s.children id)
    (hparent : ∀ id, s'.parent? id = s.parent? id)
    (hkind : ∀ id, s'.kind id = s.kind id) (hrole : ∀ id, s'.role? id = s.role? id)
    (hform : ∀ id, (s'.head id).form = (s.head id).form)
    (htext : ∀ id, s.kind id = .declaration → s.text? id = none → s'.text? id = none)
    (hcomplete : ∀ id, (s'.head id).Complete)
    (hscope : ∀ id, s'.scope? id ≠ none → s.scope? id ≠ none ∨ s.Owner id) : s.Evolves s' where
  sound := h.of_heads hsize hroot hchildren hparent hkind hrole hform htext hcomplete hscope
  size_le := hsize.ge
  root_eq := hroot
  kind_eq id _ := hkind id
  isKey id _ hkey := by
    obtain ⟨property, hproperty, hfirst⟩ := hkey
    exact ⟨property, (hkind property).symm.trans hproperty, by rwa [← hchildren]⟩

/-- A node changes in what soundness does not depend on. -/
theorem evolves_modifyHead (h : s.Sound) {f : Head → Head}
    (hkind : (f (s.head id)).kind = (s.head id).kind)
    (hrole : (f (s.head id)).role = (s.head id).role)
    (hform : (f (s.head id)).form = (s.head id).form)
    (htext : s.kind id = .declaration → s.text? id = none → (f (s.head id)).text? = none)
    (hcomplete : (f (s.head id)).Complete) : s.Evolves (s.modifyHead id f) := by
  have hsame : ∀ {α : Type} (g : Head → α), g (f (s.head id)) = g (s.head id) →
      ∀ other, g ((s.modifyHead id f).head other) = g (s.head other) := by
    intro α g hg other
    rw [head_modifyHead]
    split
    case isTrue hother => rw [hother.1, hg]
    case isFalse => rfl
  refine .of_heads h (size_modifyHead f) rfl (fun _ => children_modifyHead f)
    (fun _ => parent?_modifyHead f) (hsame Head.kind hkind) (hsame Head.role hrole)
    (hsame Head.form hform) (fun other hdeclaration hbare => ?_) (fun other => ?_)
    fun other hother => .inl (by rwa [scope?_modifyHead] at hother)
  · rw [text?, head_modifyHead]
    split
    case isTrue hother =>
        obtain ⟨rfl, -⟩ := hother
        exact htext hdeclaration hbare
    case isFalse => exact hbare
  · rw [head_modifyHead]
    split
    case isTrue hother => rwa [hother.1]
    case isFalse => exact (h.formed other).complete

theorem evolves_setParenthesized (h : s.Sound) (on : Bool) :
    s.Evolves (s.setParenthesized id on) := by
  have hid := (h.formed id).complete
  exact evolves_modifyHead h rfl rfl rfl (fun _ hbare => hbare)
    ⟨hid.text, hid.form, hid.accessor, hid.params, hid.statements⟩

/-- A name gets another text. -/
theorem evolves_setText (h : s.Sound) (hname : (s.text? id).isSome) (text : String) :
    s.Evolves (s.setText id text) := by
  have hid := (h.formed id).complete
  rw [setText, setPayload]
  refine evolves_modifyHead h rfl rfl rfl (fun _ hbare => by simp [hbare] at hname) ?_
  exact ⟨fun _ => rfl, hid.form, hid.accessor, hid.params, hid.statements⟩

theorem evolves_setPayload (h : s.Sound) (payload : Payload)
    (hkind : s.kind id ≠ .identifier ∧ s.kind id ≠ .declaration) :
    s.Evolves (s.setPayload id payload) := by
  have hid := (h.formed id).complete
  exact evolves_modifyHead h rfl rfl rfl (fun hdeclaration => absurd hdeclaration hkind.2)
    ⟨fun hname => absurd hname hkind.1, hid.form, hid.accessor, hid.params, hid.statements⟩

theorem function_of_mem_scannedFunctions {owner : NodeId} {fuel : Nat}
    (h : owner ∈ s.scannedFunctions fuel id) : s.kind owner = .function := by
  induction fuel generalizing id with
  | zero => cases h
  | succ fuel ih =>
      have hbelow : owner ∈ (s.scannedChildren id).flatMap (s.scannedFunctions fuel) →
          s.kind owner = .function := fun hmem =>
        have ⟨_, _, hc⟩ := List.mem_flatMap.mp hmem
        ih hc
      rw [scannedFunctions] at h
      split at h
      case isTrue hkind =>
          rcases List.mem_cons.mp h with rfl | hmem
          · exact hkind
          · exact hbelow hmem
      case isFalse => exact hbelow h

/-- A scan of the whole tree gives scopes to the script and to functions. -/
theorem owner_of_mem_scanOwners {owner : NodeId} (h : owner ∈ s.scanOwners s.root) :
    s.Owner owner := by
  refine (List.mem_cons.mp h).imp_right fun hmem => ?_
  obtain ⟨_, -, hfunction⟩ := List.mem_flatMap.mp hmem
  exact function_of_mem_scannedFunctions hfunction

theorem evolves_scanTree (h : s.Sound) : s.Evolves s.scanTree := by
  rw [scanTree, scan_eq]
  refine List.foldlRecOn _ _ (.refl h) fun s' hs owner howner => hs.trans ?_
  have hhead : ∀ other, (s'.setScope owner (some (s.view owner).scope)).head other = s'.head other :=
    fun _ => head_setScope _
  refine .of_heads hs.sound (size_setScope _) rfl (fun _ => children_setScope _)
    (fun _ => parent?_setScope _) ?_ ?_ ?_ ?_ ?_ ?_
  · exact fun other => congrArg Head.kind (hhead other)
  · exact fun other => congrArg Head.role (hhead other)
  · exact fun other => congrArg Head.form (hhead other)
  · exact fun other _ hbare => (congrArg Head.text? (hhead other)).trans hbare
  · intro other
    rw [hhead]
    exact (hs.sound.formed other).complete
  · intro other hother
    rw [scope?_setScope] at hother
    split at hother
    case isTrue heq =>
        refine .inr ?_
        rw [heq.1]
        have howner := owner_of_mem_scanOwners howner
        exact howner.of_eq hs.root_eq (hs.kind_eq owner (howner.lt h.toLinked))
    case isFalse => exact .inl hother

/-- A node takes a role where roles do not matter. -/
theorem evolves_setRole (h : s.Sound) {role : Option Role}
    (hrole : role ≠ some .params ∧ role ≠ some .statements)
    (hparent : ∀ p, s.parent? id = some p → (s.kind p).readsRoles = false) :
    s.Evolves (s.setRole id role) := by
  have hhead : ∀ other, other ≠ id → (s.setRole id role).head other = s.head other := by
    intro other hne
    rw [setRole, head_modifyHead, if_neg fun h => hne h.1]
  have hself : (s.setRole id role).head id = s.head id ∨
      (s.setRole id role).head id = { s.head id with role } := by
    rw [setRole, head_modifyHead]
    split
    · exact .inr rfl
    · exact .inl rfl
  have hkind : ∀ other, (s.setRole id role).kind other = s.kind other := by
    intro other
    by_cases hne : other = id
    · rw [kind, hne]
      rcases hself with hself | hself <;> rw [hself] <;> rfl
    · rw [kind, hhead other hne]
      rfl
  have hform : ∀ other, ((s.setRole id role).head other).form = (s.head other).form := by
    intro other
    by_cases hne : other = id
    · rw [hne]
      rcases hself with hself | hself <;> rw [hself]
    · rw [hhead other hne]
  have htext : ∀ other, (s.head other).kind = .declaration → (s.head other).text? = none →
      ((s.setRole id role).head other).text? = none := by
    intro other _ hbare
    by_cases hne : other = id
    · rw [hne] at hbare ⊢
      rcases hself with hself | hself <;> rw [hself] <;> exact hbare
    · rwa [hhead other hne]
  have hchildren : ∀ other, (s.setRole id role).children other = s.children other :=
    fun other => children_modifyHead _
  -- Only the node itself and its parent can see the role.
  have hroles : ∀ p c, c ∈ s.children p → (s.kind p).readsRoles = true →
      (s.setRole id role).head c = s.head c := by
    intro p c hc hp
    refine hhead c ?_
    rintro rfl
    rw [hparent p ((h.linked p c).mp hc)] at hp
    cases hp
  have hscope : ∀ other, (s.setRole id role).scope? other = s.scope? other :=
    fun _ => scope?_modifyHead _
  refine ⟨⟨h.toLinked.setRole role, ?_, ?_, ?_⟩, (size_modifyHead _).ge, rfl, fun id _ => hkind id, ?_⟩
  · exact (hkind _).trans h.root_kind
  · intro p
    have hp := h.formed p
    refine ⟨?_, ?_, ?_, ?_⟩
    · by_cases hne : p = id
      · subst hne
        rcases hself with hself | hself <;> rw [hself]
        · exact hp.complete
        · exact ⟨hp.complete.text, hp.complete.form, hp.complete.accessor,
            fun h => absurd h hrole.1, fun h => absurd h hrole.2⟩
      · rw [hhead p hne]
        exact hp.complete
    · intro i c hc
      rw [hchildren] at hc
      have hosts := hp.hosts i c hc
      cases hcase : (s.kind p).readsRoles with
      | true =>
          rw [hroles p c (List.mem_of_getElem? hc) hcase]
          exact hosts.congr (hkind p) (htext p) rfl rfl rfl
      | false =>
          exact (hosts.of_role hcase (hkind c) (hform c)).congr (hkind p) (htext p) rfl rfl rfl
    · intro hcase
      rw [hkind] at hcase
      rw [hchildren]
      refine (hp.roles hcase).imp_of_mem fun {a b} ha hb hne => ?_
      have hreads := Kind.readsRoles_of_hasRoles hcase
      rwa [role?, role?, hroles p a ha hreads, hroles p b hb hreads]
    · intro c hc hbinds
      rw [hchildren] at hc
      have hbound : (s.head p).binds (s.head c) := by
        rw [Head.binds, show ((s.setRole id role).head p).kind = (s.head p).kind from hkind p]
          at hbinds
        rw [Head.binds]
        cases hcase : (s.head p).kind <;> rw [hcase] at hbinds <;> try cases hbinds
        case declaration =>
            rwa [hroles p c hc (by rw [kind, hcase]; rfl)] at hbinds
        case catchClause =>
            rwa [hroles p c hc (by rw [kind, hcase]; rfl)] at hbinds
        case list =>
            by_cases hne : p = id
            · subst hne
              rcases hself with hself | hself <;> rw [hself] at hbinds
              · exact hbinds
              · exact absurd (eq_of_beq hbinds) hrole.1
            · rwa [hhead p hne] at hbinds
      refine (hp.patterns c hc hbound).of_sublist h (fun id _ => hkind id) ?_
      intro id _ _
      rw [hchildren]
  · exact fun other hother => (h.owner_of_scope? other (hscope other ▸ hother)).of_eq rfl (hkind other)
  · intro c _ hkey
    obtain ⟨property, hproperty, hfirst⟩ := hkey
    exact ⟨property, (hkind property).symm.trans hproperty, by rwa [← hchildren]⟩

/-! ### Taking a node away -/

theorem getElem?_of_sublist {α : Type} {l l' : List α} (h : List.Sublist l' l) {j : Nat} {a : α}
    (ha : l'[j]? = some a) : ∃ i, j ≤ i ∧ l[i]? = some a := by
  induction h generalizing j with
  | slnil => simp at ha
  | cons b _ ih =>
      obtain ⟨i, hle, hi⟩ := ih ha
      exact ⟨i + 1, Nat.le_succ_of_le hle, hi⟩
  | cons_cons b _ ih =>
      cases j with
      | zero => exact ⟨0, Nat.le_refl _, ha⟩
      | succ j =>
          obtain ⟨i, hle, hi⟩ := ih ha
          exact ⟨i + 1, Nat.succ_le_succ hle, hi⟩

/-- A node that only loses children stays formed, if a property does not lose its key. -/
theorem Formed.of_sublist (h : s.Sound) (hhead : ∀ id, s'.head id = s.head id)
    (hsub : ∀ id, List.Sublist (s'.children id) (s.children id))
    (hkey : s.kind id = .propertyInit → (s'.children id)[0]?.isSome →
      (s'.children id)[0]? = (s.children id)[0]?) : s'.Formed id := by
  have hid := h.formed id
  refine ⟨by rw [hhead]; exact hid.complete, ?_, ?_, ?_⟩
  · intro i c hc
    rw [hhead, hhead]
    by_cases hproperty : s.kind id = .propertyInit
    · refine hid.hosts i c ?_
      cases i with
      | zero => rw [← hkey hproperty (by rw [hc]; rfl), hc]
      | succ i =>
          -- With two children it has lost none.
          have hlength : (s.children id).length ≤ (s'.children id).length := by
            have := (List.getElem?_eq_some_iff.mp hc).1
            have := h.length_propertyInit hproperty
            omega
          rwa [← (hsub id).eq_of_length_le hlength]
    · obtain ⟨j, hle, hj⟩ := getElem?_of_sublist (hsub id) hc
      exact (hid.hosts j c hj).of_le hproperty hle
  · intro hroles
    rw [kind, hhead] at hroles
    refine ((hid.roles hroles).sublist (hsub id)).imp fun hne => ?_
    rwa [role?, role?, hhead, hhead]
  · intro c hc hbinds
    rw [hhead, hhead] at hbinds
    refine (hid.patterns c ((hsub id).subset hc) hbinds).of_sublist h ?_ fun id _ _ => hsub id
    intro id _
    rw [kind, hhead]
    rfl

/-- A node that is not a key can be taken away. -/
theorem evolves_detach (h : s.Sound) (hkey : ¬ s.IsKey child) : s.Evolves (s.detach child) := by
  -- The first child of a property stays the first one.
  have hfirst : ∀ id, s.kind id = .propertyInit →
      ((s.detach child).children id)[0]? = (s.children id)[0]? := by
    intro id hkind
    rw [children_detach]
    split
    case isTrue =>
        cases hlist : s.children id with
        | nil => rfl
        | cons first rest =>
            have hne : first ≠ child := by
              rintro rfl
              exact hkey ⟨id, hkind, by rw [hlist]; rfl⟩
            simp [hne]
    case isFalse => rfl
  have hkind : ∀ id, (s.detach child).kind id = s.kind id := by
    intro id
    rw [kind, head_detach]
    rfl
  have hroot : (s.detach child).root = s.root := congrArg (·.getD 0) chosenRoot_detach
  refine ⟨⟨h.toLinked.detach, ?_, ?_, ?_⟩, size_detach.ge, hroot, fun id _ => hkind id, ?_⟩
  · rw [hkind, hroot]
    exact h.root_kind
  · intro id
    exact Formed.of_sublist h (fun _ => head_detach) (fun _ => Linked.sublist_children_detach)
      fun hproperty _ => hfirst id hproperty
  · intro id hid
    rw [scope?_detach] at hid
    exact (h.owner_of_scope? id hid).of_eq hroot (hkind id)
  · rintro id - ⟨property, hproperty, hid⟩
    rw [hkind] at hproperty
    exact ⟨property, hproperty, by rw [← hfirst property hproperty, hid]⟩

/-! ### Putting a node below another one -/

/-- Nodes with the children they had stay formed, whatever happens below nodes whose kinds ask
for nothing. -/
theorem Formed.of_flexible (h : s.Sound) (hhead : ∀ id, s'.head id = s.head id)
    (hchildren : ∀ id, (s.kind id).isRigid → s'.children id = s.children id) : s'.Formed id := by
  have hid := h.formed id
  refine ⟨by rw [hhead]; exact hid.complete, ?_, ?_, ?_⟩
  · intro i c hc
    rw [hhead, hhead]
    cases hrigid : (s.kind id).isRigid with
    | true => exact hid.hosts i c (by rwa [← hchildren id hrigid])
    | false => exact .of_not_isRigid hrigid
  · intro hroles
    rw [kind, hhead] at hroles
    rw [hchildren id (Kind.isRigid_of_hasRoles hroles)]
    refine (hid.roles hroles).imp fun hne => ?_
    rwa [role?, role?, hhead, hhead]
  · intro c hc hbinds
    rw [hhead, hhead] at hbinds
    cases hrigid : (s.kind id).isRigid with
    | true =>
        rw [hchildren id hrigid] at hc
        refine (hid.patterns c hc hbinds).of_sublist h ?_ ?_
        · intro id _
          rw [kind, hhead]
          rfl
        · intro id hpattern _
          rw [hchildren id (Kind.isRigid_of_inPattern hpattern)]
    | false =>
        rw [Head.binds_of_not_isRigid hrigid] at hbinds
        cases hbinds

theorem isKey_of_flexible (hkind : ∀ id, s'.kind id = s.kind id)
    (hchildren : ∀ id, (s.kind id).isRigid → s'.children id = s.children id) (h : s'.IsKey id) :
    s.IsKey id := by
  obtain ⟨property, hproperty, hfirst⟩ := h
  rw [hkind] at hproperty
  exact ⟨property, hproperty, by rwa [← hchildren property (by rw [hproperty]; rfl)]⟩

/-- A node can be put anywhere below a node whose kind asks for nothing. -/
theorem evolves_attach (h : s.Sound) {f : List NodeId → List NodeId}
    (hf : ∀ ids, (f ids).Perm (child :: ids)) (hparent : (s.kind parent).isRigid = false)
    (hlt : parent < s.size) (hportable : s.Portable child) :
    s.Evolves (s.attach parent f child) := by
  obtain ⟨hchild, hroot, hkey⟩ := hportable
  have hlinked := h.toLinked.attach hf hlt hchild hroot
  have hdetach := evolves_detach h hkey
  refine hdetach.trans ?_
  have h := hdetach.sound
  have hhead : ∀ id, (s.attach parent f child).head id = (s.detach child).head id := by
    intro id
    rw [head_attach, head_detach]
  have hkind : ∀ id, (s.attach parent f child).kind id = (s.detach child).kind id := by
    intro id
    rw [kind, hhead]
    rfl
  have hrigid : ((s.detach child).kind parent).isRigid = false := by
    rwa [hdetach.kind_eq parent hlt]
  have hchildren : ∀ id, ((s.detach child).kind id).isRigid →
      (s.attach parent f child).children id = (s.detach child).children id := by
    intro id hid
    rw [children_attach hlt, if_neg]
    rintro rfl
    rw [hrigid] at hid
    cases hid
  have hrootEq : (s.attach parent f child).root = (s.detach child).root := by
    rw [root, root, chosenRoot_attach, chosenRoot_detach]
  refine ⟨⟨hlinked, ?_, ?_, ?_⟩, ?_, hrootEq, fun id _ => hkind id,
    fun id _ => isKey_of_flexible hkind hchildren⟩
  · rw [hrootEq, hkind]
    exact h.root_kind
  · intro id
    exact Formed.of_flexible h hhead hchildren
  · intro id hid
    refine (h.owner_of_scope? id ?_).of_eq hrootEq (hkind id)
    rwa [scope?_attach, ← scope?_detach] at hid
  · rw [size_attach, size_detach]

theorem evolves_append (h : s.Sound) (hparent : (s.kind parent).isRigid = false)
    (hlt : parent < s.size) (hchild : s.Portable child) : s.Evolves (s.append parent child) := by
  rw [append_eq]
  exact evolves_attach h (fun ids => List.perm_append_singleton child ids) hparent hlt hchild

theorem evolves_insert (h : s.Sound) (index : Nat) (hparent : (s.kind parent).isRigid = false)
    (hlt : parent < s.size) (hchild : s.Portable child) :
    s.Evolves (s.insert parent index child) := by
  rw [insert_eq]
  refine evolves_attach h (fun ids => ?_) hparent hlt hchild
  exact List.perm_insertIdx child ids (Nat.min_le_right _ _)

/-! ### Adding a node -/

theorem evolves_add (h : s.Sound) {head : Head} (hhead : head.Complete) :
    s.Evolves (s.add head).2 := by
  have hold : ∀ id, id < s.size → (s.add head).2.head id = s.head id := by
    intro id hid
    rw [head_add, if_neg (Nat.ne_of_lt hid)]
  have hkind : ∀ id < s.size, (s.add head).2.kind id = s.kind id := by
    intro id hid
    rw [kind, hold id hid]
    rfl
  refine ⟨⟨h.toLinked.add head, ?_, ?_, ?_⟩, ?_, rfl, hkind, ?_⟩
  · exact (hkind _ h.root_lt).trans h.root_kind
  · intro id
    by_cases hid : id < s.size
    · have hformed := h.formed id
      have hchild : ∀ c ∈ s.children id, (s.add head).2.head c = s.head c :=
        fun c hc => hold c (h.child_lt hc)
      refine ⟨by rw [hold id hid]; exact hformed.complete, ?_, ?_, ?_⟩
      · intro i c hc
        rw [children_add] at hc
        rw [hold id hid, hchild c (List.mem_of_getElem? hc)]
        exact hformed.hosts i c hc
      · intro hroles
        rw [hkind id hid] at hroles
        rw [children_add]
        refine (hformed.roles hroles).imp_of_mem fun {a b} ha hb hne => ?_
        rwa [role?, role?, hchild a ha, hchild b hb]
      · intro c hc hbinds
        rw [children_add] at hc
        rw [hold id hid, hchild c hc] at hbinds
        refine (hformed.patterns c hc hbinds).of_sublist h hkind ?_
        intro id _ _
        rw [children_add]
    · have hnone : (s.add head).2.children id = [] := by
        rw [children_add, children_of_size_le (Nat.le_of_not_lt hid)]
      refine ⟨?_, ?_, ?_, ?_⟩
      · rw [head_add]
        split
        · exact hhead
        · exact (h.formed id).complete
      · intro i c hc
        rw [hnone] at hc
        cases hc
      · intro _
        rw [hnone]
        exact .nil
      · intro c hc
        rw [hnone] at hc
        cases hc
  · intro id hid
    rw [scope?_add] at hid
    exact (h.owner_of_scope? id hid).of_eq rfl (hkind id (lt_of_scope? hid))
  · rw [size_add]
    exact Nat.le_succ _
  · rintro id hid ⟨property, hproperty, hfirst⟩
    rw [children_add] at hfirst
    refine ⟨property, ?_, hfirst⟩
    rwa [hkind property (lt_of_mem_children (List.mem_of_getElem? hfirst))] at hproperty

/-- A node that has just been added is detached and can be put anywhere. -/
theorem portable_add (h : s.Sound) {head : Head} (hhead : head.Complete) :
    (s.add head).2.Portable s.size := by
  have hadd := evolves_add h hhead
  refine hadd.sound.portable_of_parent (by rw [size_add]; exact Nat.lt_succ_self _) ?_ ?_
  · rw [parent?_add, parent?_of_size_le (Nat.le_refl _)]
  · rw [hadd.root_eq]
    exact Nat.ne_of_gt h.root_lt

end ScriptMin.Store
