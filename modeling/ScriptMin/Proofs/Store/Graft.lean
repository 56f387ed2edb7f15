import ScriptMin.Proofs.Store.Evolution
import ScriptMin.Proofs.Store.Growth

/-!
Formed trees in stores. Where a tree that is grafted is formed the store stays sound. The same
goes for copies, since the trees that a sound store shows are formed, even where a view ends too
early.
-/

namespace ScriptMin

namespace Store

variable {s s' : Store} {id parent : NodeId}

/-- A node that shows a pattern is one. -/
theorem Shows.isPattern {t : Tree} (ht : t.IsPattern) (h : s.Shows id t) : s.IsPattern id := by
  induction ht generalizing id with
  | leaf hkind => exact .leaf (by rwa [kind, h.head_eq])
  | array hkind _ ih =>
      refine .array (by rwa [kind, h.head_eq]) fun c hc => ?_
      obtain ⟨t, ht, hshows⟩ := h.children.of_mem hc
      exact ih t ht hshows
  | object hkind hfields _ ih =>
      refine .object (by rwa [kind, h.head_eq]) ?_ ?_
      · intro c hc
        obtain ⟨t, ht, hshows⟩ := h.children.of_mem hc
        rw [kind, hshows.head_eq]
        exact hfields t ht
      · intro c hc value hvalue
        obtain ⟨t, ht, hshows⟩ := h.children.of_mem hc
        obtain ⟨t', ht', hshows'⟩ := hshows.children.getElem? hvalue
        exact ih t ht t' ht' hshows'

/-- A node that shows a formed tree is formed. -/
theorem Shows.formed {t : Tree} (ht : t.Formed) (h : s.Shows id t) : s.Formed id := by
  cases ht with
  | node hcomplete hhosts hroles hpatterns =>
      have hhead := h.head_eq
      refine ⟨by rwa [hhead], ?_, ?_, ?_⟩
      · intro i c hc
        obtain ⟨t, ht, hshows⟩ := h.children.getElem? hc
        rw [hhead, hshows.head_eq]
        exact hhosts i t ht
      · intro hkind
        rw [kind, hhead] at hkind
        exact h.children.pairwise (hroles hkind)
      · intro c hc hbinds
        obtain ⟨t, ht, hshows⟩ := h.children.of_mem hc
        rw [hhead, hshows.head_eq] at hbinds
        exact hshows.isPattern (hpatterns t ht hbinds)

/-- A sound store that has grown by a detached tree is sound. -/
theorem Grown.evolves (hs : s.Sound) (h : Grown Tree.Formed s s' [id]) (hid : s'.parent? id = none) :
    s.Evolves s' := by
  have hhead : ∀ id < s.size, s'.head id = s.head id := by
    intro id hlt
    rw [Store.head, h.node_eq id hlt]
    rfl
  have hchildren : ∀ id < s.size, s'.children id = s.children id := by
    intro id hlt
    rw [Store.children, h.node_eq id hlt]
    rfl
  have hkind : ∀ id < s.size, s'.kind id = s.kind id := by
    intro id hlt
    rw [kind, hhead id hlt]
    rfl
  have hroot : s'.root = s.root := by rw [root, h.chosenRoot_eq]; rfl
  have hrigid : ∀ id, s.IsPattern id → s'.IsPattern id := by
    intro id hpattern
    refine hpattern.of_sublist hs hkind fun id hin _ => ?_
    rw [hchildren id (lt_of_kind ?_)]
    intro hscript
    rw [hscript] at hin
    cases hin
  refine ⟨⟨hs.toLinked.of_grown h hid, ?_, ?_, ?_⟩, h.size_le, hroot, hkind, ?_⟩
  · rw [hroot, hkind _ hs.root_lt]
    exact hs.root_kind
  · intro p
    by_cases hp : p < s.size
    · have hformed := hs.formed p
      have hchild : ∀ c ∈ s.children p, s'.head c = s.head c :=
        fun c hc => hhead c (hs.child_lt hc)
      refine ⟨by rw [hhead p hp]; exact hformed.complete, ?_, ?_, ?_⟩
      · intro i c hc
        rw [hchildren p hp] at hc
        rw [hhead p hp, hchild c (List.mem_of_getElem? hc)]
        exact hformed.hosts i c hc
      · intro hroles
        rw [hkind p hp] at hroles
        rw [hchildren p hp]
        refine (hformed.roles hroles).imp_of_mem fun {a b} ha hb hne => ?_
        rwa [role?, role?, hchild a ha, hchild b hb]
      · intro c hc hbinds
        rw [hchildren p hp] at hc
        rw [hhead p hp, hchild c hc] at hbinds
        exact hrigid c (hformed.patterns c hc hbinds)
    · by_cases hlt : p < s'.size
      · obtain ⟨t, ht, hshows⟩ := h.shows p (Nat.le_of_not_lt hp) hlt
        exact hshows.formed ht
      · exact formed_of_size_le (Nat.le_of_not_lt hlt)
  · intro id hid
    rw [h.scope_eq] at hid
    exact (hs.owner_of_scope? id hid).of_eq hroot (hkind id (lt_of_scope? hid))
  · rintro c hc ⟨property, hproperty, hfirst⟩
    have hp : property < s.size := by
      by_contra hp
      have := h.child_bounds (Nat.le_of_not_lt hp) (List.mem_of_getElem? hfirst)
      exact absurd hc (Nat.not_lt.mpr this.1)
    exact ⟨property, by rwa [← hkind property hp], by rwa [← hchildren property hp]⟩

/-- The trees below a formed one are formed. -/
theorem formed_of_mem (head : Head) (children : List Tree) (h : (Tree.node head children).Formed) :
    ∀ c ∈ children, c.Formed := by
  cases h with
  | node _ _ _ _ hchildren => exact hchildren

/-- A tree that is grafted is a new node that can be put anywhere. -/
theorem evolves_graft (hs : s.Sound) {t : Tree} (ht : t.Formed) (hgraft : s.graft t = (id, s')) :
    s.Evolves s' ∧ s'.Portable id ∧ s'.parent? id = none := by
  obtain ⟨hid, hgrown, hlt, hparent, -⟩ := grown_graft formed_of_mem ht s
  rw [hgraft] at hid hgrown hlt hparent
  dsimp only at hid hgrown hlt hparent
  subst hid
  have hevolves := hgrown.evolves hs hparent
  refine ⟨hevolves, hevolves.sound.portable_of_parent hlt hparent ?_, hparent⟩
  rw [hevolves.root_eq]
  exact Nat.ne_of_gt hs.root_lt

@[simp] theorem head_viewFrom (depth : Nat) : (s.viewFrom depth id).head = s.head id := by
  cases depth <;> rfl

/-- A pattern is one wherever its view ends. -/
theorem IsPattern.viewFrom (h : s.IsPattern id) (depth : Nat) : (s.viewFrom depth id).IsPattern := by
  induction h generalizing depth with
  | leaf hkind => cases depth <;> exact .leaf hkind
  | array hkind _ ih =>
      cases depth with
      | zero => exact .array hkind (by simp)
      | succ depth =>
          refine .array hkind fun t ht => ?_
          obtain ⟨c, hc, rfl⟩ := List.mem_map.mp ht
          exact ih c hc depth
  | object hkind hfields _ ih =>
      cases depth with
      | zero => exact .object hkind (by simp) (by simp)
      | succ depth =>
          refine .object hkind ?_ ?_
          · intro t ht
            obtain ⟨c, hc, rfl⟩ := List.mem_map.mp ht
            rw [Tree.kind, head_viewFrom]
            exact hfields c hc
          · intro t ht value hvalue
            obtain ⟨c, hc, rfl⟩ := List.mem_map.mp ht
            cases depth with
            | zero => cases hvalue
            | succ depth =>
                rw [Store.viewFrom, Tree.children, List.getElem?_map, Option.map_eq_some_iff]
                  at hvalue
                obtain ⟨v, hv, rfl⟩ := hvalue
                exact ih c hc v hv depth

/-- The tree at a node is formed, wherever its view ends. -/
theorem Sound.formed_viewFrom (hs : s.Sound) (depth : Nat) (id : NodeId) :
    (s.viewFrom depth id).Formed := by
  induction depth generalizing id with
  | zero => exact .node (hs.formed id).complete (by simp) (by simp) (by simp) (by simp)
  | succ depth ih =>
      have hid := hs.formed id
      refine .node hid.complete ?_ ?_ ?_ ?_
      · intro i t ht
        rw [List.getElem?_map, Option.map_eq_some_iff] at ht
        obtain ⟨c, hc, rfl⟩ := ht
        rw [head_viewFrom]
        exact hid.hosts i c hc
      · intro hroles
        rw [List.pairwise_map]
        refine (hid.roles hroles).imp fun hne => ?_
        rwa [head_viewFrom, head_viewFrom]
      · intro t ht hbinds
        obtain ⟨c, hc, rfl⟩ := List.mem_map.mp ht
        rw [head_viewFrom] at hbinds
        exact (hid.patterns c hc hbinds).viewFrom depth
      · intro t ht
        obtain ⟨c, -, rfl⟩ := List.mem_map.mp ht
        exact ih c

/-- The nodes of the store of a tree show trees with all properties that the tree has and hands down
to its parts. -/
theorem exists_shows_ofTree {P : Tree → Prop}
    (hbelow : ∀ head children, P (.node head children) → ∀ c ∈ children, P c) {t : Tree} (ht : P t)
    (hid : id < (ofTree t).size) : ∃ t', P t' ∧ (ofTree t).Shows id t' := by
  obtain ⟨-, hgrown, -⟩ := grown_graft hbelow ht {}
  obtain ⟨t', ht', hshows⟩ := hgrown.shows id (Nat.zero_le _) hid
  have hnode : ∀ id, 0 ≤ id ∧ id < (graft t {}).2.size →
      (ofTree t).node id = (graft t {}).2.node id := fun _ _ => rfl
  refine ⟨t', ht', Shows.mono hnode ?_ t' id ⟨Nat.zero_le _, hid⟩ hshows⟩
  exact fun q c hq hc => hgrown.child_bounds hq.1 hc

/-- The store of a formed script is sound. -/
theorem sound_ofTree {t : Tree} (ht : t.Formed) (hkind : t.kind = .script) : (ofTree t).Sound := by
  obtain ⟨hid, hgrown, hlt, hparent, hshows⟩ := grown_graft formed_of_mem ht {}
  have hroot : (ofTree t).root = 0 := hid
  refine ⟨linked_ofTree t, ?_, ?_, fun id hid => absurd (hgrown.scope_eq id) hid⟩
  · rw [hroot]
    exact (congrArg Head.kind hshows.head_eq).trans hkind
  · intro p
    by_cases hp : p < (ofTree t).size
    · obtain ⟨t', ht', hshows'⟩ := exists_shows_ofTree formed_of_mem ht hp
      exact hshows'.formed ht'
    · exact formed_of_size_le (Nat.le_of_not_lt hp)

end Store

end ScriptMin
