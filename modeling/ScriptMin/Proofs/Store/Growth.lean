import ScriptMin.Proofs.Store.Links

/-!
Trees in stores. A tree that is grafted shows up at its topmost node: the new nodes are linked
with each other as the tree is, and every one of them comes behind its parent. The nodes that
were there before do not change.
-/

namespace ScriptMin

namespace Store

variable {s s' s'' : Store} {id parent : NodeId} {P : Tree → Prop}

mutual
def Shows (s : Store) : NodeId → Tree → Prop
  | id, .node head children => s.head id = head ∧ ShowsList s (s.children id) children

/-- Several nodes show several trees. -/
def ShowsList (s : Store) : List NodeId → List Tree → Prop
  | [], [] => True
  | id :: ids, t :: ts => Shows s id t ∧ ShowsList s ids ts
  | _, _ => False
end

theorem Shows.head_eq {t : Tree} (h : s.Shows id t) : s.head id = t.head := by
  cases t with
  | node head children =>
      rw [Shows] at h
      exact h.1

theorem Shows.children {t : Tree} (h : s.Shows id t) : s.ShowsList (s.children id) t.children := by
  cases t with
  | node head children =>
      rw [Shows] at h
      exact h.2

theorem not_showsList_nil {ids : List NodeId} (h : s.ShowsList (id :: ids) []) : False := by
  simp [ShowsList] at h

theorem ShowsList.getElem? {ids : List NodeId} {ts : List Tree} (h : s.ShowsList ids ts) {i : Nat}
    (hid : ids[i]? = some id) : ∃ t, ts[i]? = some t ∧ s.Shows id t := by
  induction ids generalizing ts i with
  | nil => simp at hid
  | cons first rest ih =>
      cases ts with
      | nil => exact (not_showsList_nil h).elim
      | cons t ts =>
          rw [ShowsList] at h
          cases i with
          | zero =>
              rw [List.getElem?_cons_zero, Option.some_inj] at hid
              subst hid
              exact ⟨t, rfl, h.1⟩
          | succ i => exact ih h.2 hid

theorem ShowsList.of_mem {ids : List NodeId} {ts : List Tree} (h : s.ShowsList ids ts)
    (hid : id ∈ ids) : ∃ t ∈ ts, s.Shows id t := by
  obtain ⟨i, hi⟩ := List.getElem?_of_mem hid
  obtain ⟨t, ht, hshows⟩ := h.getElem? hi
  exact ⟨t, List.mem_of_getElem? ht, hshows⟩

theorem ShowsList.pairwise {ids : List NodeId} {ts : List Tree} (h : s.ShowsList ids ts)
    (hroles : ts.Pairwise fun a b => a.head.role ≠ b.head.role) :
    ids.Pairwise fun a b => s.role? a ≠ s.role? b := by
  induction ids generalizing ts with
  | nil => exact .nil
  | cons first rest ih =>
      cases ts with
      | nil => exact (not_showsList_nil h).elim
      | cons t ts =>
          rw [ShowsList] at h
          rw [List.pairwise_cons] at hroles
          refine .cons (fun id hid => ?_) (ih h.2 hroles.2)
          obtain ⟨t', ht', hshows⟩ := h.2.of_mem hid
          rw [role?, role?, h.1.head_eq, hshows.head_eq]
          exact hroles.1 t' ht'

/-! ### Growing -/

/-- A store has new nodes behind its old ones. The new nodes are linked with each other and show
trees with a property, except that nothing is known above the topmost ones. -/
structure Grown (P : Tree → Prop) (s s' : Store) (topmost : List NodeId) : Prop where
  size_le : s.size ≤ s'.size
  node_eq : ∀ id < s.size, s'.node id = s.node id
  chosenRoot_eq : s'.chosenRoot = s.chosenRoot
  nodup : ∀ p, s.size ≤ p → (s'.children p).Nodup
  down : ∀ p c, s.size ≤ p → c ∈ s'.children p → p < c ∧ c < s'.size ∧ s'.parent? c = some p
  up : ∀ p c, s.size ≤ c → s'.parent? c = some p → c ∉ topmost → s.size ≤ p ∧ c ∈ s'.children p
  shows : ∀ id, s.size ≤ id → id < s'.size → ∃ t, P t ∧ s'.Shows id t
  scope_eq : ∀ id, s'.scope? id = s.scope? id

theorem Grown.child_bounds {topmost : List NodeId} (h : Grown P s s' topmost) {p c : NodeId}
    (hp : s.size ≤ p) (hc : c ∈ s'.children p) : s.size ≤ c ∧ c < s'.size :=
  ⟨hp.trans (h.down p c hp hc).1.le, (h.down p c hp hc).2.1⟩

mutual
/-- What nodes show stays where these nodes and those below them stay. -/
theorem Shows.mono {M : NodeId → Prop} (hnode : ∀ id, M id → s'.node id = s.node id)
    (hdown : ∀ p c, M p → c ∈ s.children p → M c) :
    ∀ (t : Tree) (id : NodeId), M id → s.Shows id t → s'.Shows id t
  | .node head children, id, hid, hshows => by
      rw [Shows] at hshows ⊢
      have hchildren : s'.children id = s.children id := by
        rw [Store.children, hnode id hid]
        rfl
      refine ⟨?_, ?_⟩
      · rw [Store.head, hnode id hid]
        exact hshows.1
      · rw [hchildren]
        exact ShowsList.mono hnode hdown children _ (fun c hc => hdown id c hid hc) hshows.2

theorem ShowsList.mono {M : NodeId → Prop} (hnode : ∀ id, M id → s'.node id = s.node id)
    (hdown : ∀ p c, M p → c ∈ s.children p → M c) :
    ∀ (ts : List Tree) (ids : List NodeId), (∀ id ∈ ids, M id) → s.ShowsList ids ts →
      s'.ShowsList ids ts
  | [], [], _, _ => trivial
  | [], _ :: _, _, hshows => (not_showsList_nil hshows).elim
  | _ :: _, [], _, hshows => by simp [ShowsList] at hshows
  | t :: ts, id :: ids, hids, hshows => by
      rw [ShowsList] at hshows ⊢
      refine ⟨Shows.mono hnode hdown t id (hids id List.mem_cons_self) hshows.1,
        ShowsList.mono hnode hdown ts ids (fun c hc => ?_) hshows.2⟩
      exact hids c (List.mem_cons_of_mem _ hc)
end

theorem Grown.refl : Grown P s s [] where
  size_le := Nat.le_refl _
  node_eq _ _ := rfl
  chosenRoot_eq := rfl
  nodup p hp := by rw [children_of_size_le hp]; exact List.nodup_nil
  down p c hp hc := by rw [children_of_size_le hp] at hc; cases hc
  up p c hc hparent := by rw [parent?_of_size_le hc] at hparent; cases hparent
  shows id hle hlt := absurd hlt (Nat.not_lt.mpr hle)
  scope_eq _ := rfl

theorem Grown.trans {ids ids' : List NodeId} (h : Grown P s s' ids) (h' : Grown P s' s'' ids') :
    Grown P s s'' (ids ++ ids') := by
  have hchildren : ∀ id < s'.size, s''.children id = s'.children id := by
    intro id hid
    rw [Store.children, h'.node_eq id hid]
    rfl
  have hparent : ∀ id < s'.size, s''.parent? id = s'.parent? id := by
    intro id hid
    rw [parent?, h'.node_eq id hid]
    rfl
  refine ⟨h.size_le.trans h'.size_le, ?_, h'.chosenRoot_eq.trans h.chosenRoot_eq, ?_, ?_, ?_, ?_,
    fun id => (h'.scope_eq id).trans (h.scope_eq id)⟩
  · intro id hid
    rw [h'.node_eq id (hid.trans_le h.size_le), h.node_eq id hid]
  · intro p hp
    by_cases hlt : p < s'.size
    · rw [hchildren p hlt]
      exact h.nodup p hp
    · exact h'.nodup p (Nat.le_of_not_lt hlt)
  · intro p c hp hc
    by_cases hlt : p < s'.size
    · rw [hchildren p hlt] at hc
      obtain ⟨hle, hc', hparentc⟩ := h.down p c hp hc
      exact ⟨hle, hc'.trans_le h'.size_le, by rw [hparent c hc', hparentc]⟩
    · exact h'.down p c (Nat.le_of_not_lt hlt) hc
  · intro p c hc hparentc htop
    rw [List.mem_append, not_or] at htop
    by_cases hlt : c < s'.size
    · rw [hparent c hlt] at hparentc
      obtain ⟨hp, hmem⟩ := h.up p c hc hparentc htop.1
      exact ⟨hp, by rwa [hchildren p (lt_of_mem_children hmem)]⟩
    · obtain ⟨hp, hmem⟩ := h'.up p c (Nat.le_of_not_lt hlt) hparentc htop.2
      exact ⟨h.size_le.trans hp, hmem⟩
  · intro id hle hlt
    by_cases hid : id < s'.size
    · obtain ⟨t, ht, hshows⟩ := h.shows id hle hid
      refine ⟨t, ht, Shows.mono (M := fun id => s.size ≤ id ∧ id < s'.size)
        (fun id hid => h'.node_eq id hid.2) ?_ t id ⟨hle, hid⟩ hshows⟩
      exact fun p c hp hc => h.child_bounds hp.1 hc
    · exact h'.shows id (Nat.le_of_not_lt hid) hlt

/-! ### Grafting -/

def addBelow (parent : Option NodeId) (head : Head) (s : Store) : Store :=
  { s with nodes := s.nodes.push { head, parent } }

@[simp] theorem size_addBelow (p : Option NodeId) (h : Head) :
    (s.addBelow p h).size = s.size + 1 := by
  simp [addBelow, size]

theorem node_addBelow (p : Option NodeId) (h : Head) :
    (s.addBelow p h).node id = if id = s.size then { head := h, parent := p } else s.node id := by
  simp only [addBelow, node, size, Array.getElem?_push]
  by_cases heq : id = s.nodes.size
  · simp [heq]
  · simp [heq]

theorem scope?_addBelow (p : Option NodeId) (h : Head) :
    (s.addBelow p h).scope? id = s.scope? id := by
  rw [scope?, node_addBelow]
  split
  case isTrue heq =>
      rw [scope?, node_of_size_le (Nat.le_of_eq heq.symm)]
      rfl
  case isFalse => rfl

/-- A node gets the nodes that have grown for it as its children. -/
theorem Grown.node {p : Option NodeId} {head : Head} {children : List Tree} {ids : List NodeId}
    (hP : P (.node head children)) (h : Grown P (s.addBelow p head) s' ids)
    (hnodup : ids.Nodup)
    (hids : ∀ id ∈ ids, s.size + 1 ≤ id ∧ id < s'.size ∧ s'.parent? id = some s.size)
    (hshows : s'.ShowsList ids children) :
    Grown P s (s'.mapChildren s.size fun _ => ids) [s.size] ∧
      s.size < (s'.mapChildren s.size fun _ => ids).size ∧
      (s'.mapChildren s.size fun _ => ids).parent? s.size = p ∧
      (s'.mapChildren s.size fun _ => ids).Shows s.size (.node head children) := by
  have hsize : s.size < s'.size := (size_addBelow p head).symm.trans_le h.size_le
  have hbehind : ∀ {id}, s.size ≤ id → id ≠ s.size → (s.addBelow p head).size ≤ id := by
    intro id hle hne
    rw [size_addBelow]
    omega
  have hnode : ∀ id, id ≠ s.size → (s'.mapChildren s.size fun _ => ids).node id = s'.node id := by
    intro id hne
    rw [mapChildren, node_modifyNode, if_neg fun h => hne h.1]
  have hself : s'.node s.size = { head, parent := p } := by
    rw [h.node_eq s.size (by simp), node_addBelow, if_pos rfl]
  have hchildren : ∀ id, (s'.mapChildren s.size fun _ => ids).children id =
      if id = s.size then ids else s'.children id := by
    intro id
    rw [children_mapChildren]
    simp only [hsize, and_true]
  have hshows' : (s'.mapChildren s.size fun _ => ids).Shows s.size (.node head children) := by
    rw [Shows, head_mapChildren, Store.head, hself, hchildren, if_pos rfl]
    refine ⟨rfl, ShowsList.mono (M := fun id => s.size + 1 ≤ id ∧ id < s'.size) ?_ ?_ children ids ?_
      hshows⟩
    · exact fun id hid => hnode id (by omega)
    · intro q c hq hc
      rw [← size_addBelow p head] at hq ⊢
      exact h.child_bounds hq.1 hc
    · exact fun id hid => ⟨(hids id hid).1, (hids id hid).2.1⟩
  refine ⟨⟨?_, ?_, ?_, ?_, ?_, ?_, ?_, ?_⟩, by rwa [size_mapChildren], ?_, hshows'⟩
  · rw [size_mapChildren]
    exact hsize.le
  · intro id hid
    rw [hnode id (Nat.ne_of_lt hid), h.node_eq id (by rw [size_addBelow]; omega), node_addBelow,
      if_neg (Nat.ne_of_lt hid)]
  · rw [chosenRoot_mapChildren, h.chosenRoot_eq]
    rfl
  · intro q hq
    rw [hchildren]
    split
    · exact hnodup
    · exact h.nodup q (hbehind hq ‹_›)
  · intro q c hq hc
    rw [hchildren] at hc
    rw [parent?_mapChildren, size_mapChildren]
    split at hc
    case isTrue heq =>
        obtain ⟨hle, hlt, hparent⟩ := hids c hc
        exact ⟨by rw [heq]; exact hle, hlt, by rw [hparent, heq]⟩
    case isFalse hne => exact h.down q c (hbehind hq hne) hc
  · intro q c hc hparent hne
    rw [List.mem_singleton] at hne
    rw [parent?_mapChildren] at hparent
    by_cases hmem : c ∈ ids
    · rw [(hids c hmem).2.2, Option.some_inj] at hparent
      subst hparent
      exact ⟨Nat.le_refl _, by rwa [hchildren, if_pos rfl]⟩
    · obtain ⟨hq, hc'⟩ := h.up q c (hbehind hc hne) hparent hmem
      rw [size_addBelow] at hq
      exact ⟨by omega, by rwa [hchildren, if_neg (Nat.ne_of_gt hq)]⟩
  · intro id hle hlt
    by_cases hid : id = s.size
    · exact ⟨_, hP, hid ▸ hshows'⟩
    · rw [size_mapChildren] at hlt
      obtain ⟨t, ht, hshown⟩ := h.shows id (hbehind hle hid) hlt
      refine ⟨t, ht, ?_⟩
      refine Shows.mono (M := fun id => s.size + 1 ≤ id ∧ id < s'.size) ?_ ?_ t id
        ⟨by omega, hlt⟩ hshown
      · exact fun id hid => hnode id (by omega)
      · intro q c hq hc
        rw [← size_addBelow p head] at hq ⊢
        exact h.child_bounds hq.1 hc
  · intro id
    rw [scope?_mapChildren, h.scope_eq, scope?_addBelow]
  · rw [parent?_mapChildren, parent?, hself]

mutual
/-- Adds a tree below a parent that does not know it. -/
def plant (parent : Option NodeId) : Tree → Store → NodeId × Store
  | .node head children, s =>
    let (ids, s') := plantList s.size children (s.addBelow parent head)
    (s.size, s'.mapChildren s.size fun _ => ids)

def plantList (parent : NodeId) : List Tree → Store → List NodeId × Store
  | [], s => ([], s)
  | t :: rest, s =>
    let (id, s) := plant (some parent) t s
    let (ids, s) := plantList parent rest s
    (id :: ids, s)
end

mutual
/-- A tree grows below a parent. The property has to hold of the trees below a tree as well. -/
theorem grown_plant (hbelow : ∀ head children, P (.node head children) → ∀ c ∈ children, P c) :
    ∀ {t : Tree}, P t → ∀ (p : Option NodeId) (s : Store),
    (plant p t s).1 = s.size ∧ Grown P s (plant p t s).2 [s.size] ∧
      s.size < (plant p t s).2.size ∧ (plant p t s).2.parent? s.size = p ∧
      (plant p t s).2.Shows s.size t
  | .node head children, hP, p, s => by
      obtain ⟨hgrown, hnodup, hids, hshows⟩ :=
        grown_plantList hbelow (hbelow head children hP) s.size (s.addBelow p head)
      rw [size_addBelow] at hids
      exact ⟨rfl, hgrown.node hP hnodup hids hshows⟩

theorem grown_plantList (hbelow : ∀ head children, P (.node head children) → ∀ c ∈ children, P c) :
    ∀ {ts : List Tree}, (∀ t ∈ ts, P t) → ∀ (p : NodeId) (s : Store),
    Grown P s (plantList p ts s).2 (plantList p ts s).1 ∧ (plantList p ts s).1.Nodup ∧
      (∀ id ∈ (plantList p ts s).1, s.size ≤ id ∧ id < (plantList p ts s).2.size ∧
        (plantList p ts s).2.parent? id = some p) ∧
      (plantList p ts s).2.ShowsList (plantList p ts s).1 ts
  | [], _, p, s => ⟨.refl, List.nodup_nil, (by intro id hid; cases hid), trivial⟩
  | t :: ts, hts, p, s => by
      obtain ⟨hfirst, hgrown, hlt, hparent, hshows⟩ :=
        grown_plant hbelow (hts t List.mem_cons_self) (some p) s
      obtain ⟨hgrown', hnodup, hids, hshows'⟩ :=
        grown_plantList hbelow (fun t ht => hts t (List.mem_cons_of_mem _ ht)) p
          (plant (some p) t s).2
      have hplant : plantList p (t :: ts) s =
          (s.size :: (plantList p ts (plant (some p) t s).2).1,
            (plantList p ts (plant (some p) t s).2).2) := by
        rw [← hfirst]
        rfl
      rw [hplant]
      refine ⟨hgrown.trans hgrown', List.nodup_cons.mpr ⟨?_, hnodup⟩, ?_, ?_⟩
      · intro hmem
        exact absurd hlt (Nat.not_lt.mpr (hids _ hmem).1)
      · intro id hid
        rcases List.mem_cons.mp hid with rfl | hid
        · refine ⟨Nat.le_refl _, hlt.trans_le hgrown'.size_le, ?_⟩
          rw [parent?, hgrown'.node_eq _ hlt]
          exact hparent
        · obtain ⟨hle, hlt', hparent'⟩ := hids id hid
          exact ⟨hgrown.size_le.trans hle, hlt', hparent'⟩
      · rw [ShowsList]
        refine ⟨?_, hshows'⟩
        refine Shows.mono (M := fun id => s.size ≤ id ∧ id < (plant (some p) t s).2.size) ?_ ?_
          t _ ⟨Nat.le_refl _, hlt⟩ hshows
        · exact fun id hid => hgrown'.node_eq id hid.2
        · exact fun q c hq hc => hgrown.child_bounds hq.1 hc
end

/-! ### Grafting -/

/-- Stores are told apart by their nodes. -/
theorem eq_of_node (hsize : s'.size = s.size) (hroot : s'.chosenRoot = s.chosenRoot)
    (hnode : ∀ id < s.size, s'.node id = s.node id) : s' = s := by
  obtain ⟨nodes, chosenRoot⟩ := s
  obtain ⟨nodes', chosenRoot'⟩ := s'
  obtain rfl : chosenRoot' = chosenRoot := hroot
  have hnodes : nodes' = nodes := by
    refine Array.ext hsize fun id hlt' hlt => ?_
    have heq := hnode id hlt
    simpa only [node, Array.getElem?_eq_getElem hlt, Array.getElem?_eq_getElem hlt',
      Option.getD_some] using heq
  rw [hnodes]

theorem modifyNode_congr {f g : Node → Node} (h : f (s.node id) = g (s.node id)) :
    s.modifyNode id f = s.modifyNode id g := by
  refine eq_of_node (by simp) rfl fun other _ => ?_
  rw [node_modifyNode, node_modifyNode]
  split
  case isTrue heq => rw [heq.1, h]
  case isFalse => rfl

theorem modifyNode_self : (s.modifyNode id fun n => n) = s := by
  refine eq_of_node (by simp) rfl fun other _ => ?_
  rw [node_modifyNode, ite_self]

theorem modifyHead_self : (s.modifyHead id fun h => h) = s := modifyNode_self

theorem modifyNode_modifyNode (f g : Node → Node) :
    (s.modifyNode id f).modifyNode id g = s.modifyNode id fun n => g (f n) := by
  refine eq_of_node (by simp) rfl fun other _ => ?_
  simp only [node_modifyNode, size_modifyNode]
  split <;> rfl

theorem modifyNode_comm {id' : NodeId} (hne : id' ≠ id) (f g : Node → Node) :
    (s.modifyNode id f).modifyNode id' g = (s.modifyNode id' g).modifyNode id f := by
  refine eq_of_node (by simp) rfl fun other _ => ?_
  simp only [node_modifyNode, size_modifyNode]
  by_cases heq : other = id
  · subst heq
    simp [Ne.symm hne]
  · simp [heq]

theorem addBelow_modifyNode (hid : id < s.size) (p : Option NodeId) (head : Head)
    (f : Node → Node) : (s.modifyNode id f).addBelow p head = (s.addBelow p head).modifyNode id f := by
  refine eq_of_node (by simp) rfl fun other _ => ?_
  simp only [node_addBelow, node_modifyNode, size_modifyNode, size_addBelow]
  by_cases heq : other = s.size
  · have hne : ¬ (other = id ∧ id < s.size + 1) := fun h => Nat.ne_of_gt hid (heq ▸ h.1)
    rw [if_pos heq, if_neg hne, if_pos heq]
  · rw [if_neg heq, if_neg heq]
    exact if_congr (and_congr_right fun _ => iff_of_true hid (Nat.lt_succ_of_lt hid)) rfl rfl

mutual
/-- Planting does not depend on the nodes that were there before. -/
theorem plant_modifyNode (f : Node → Node) : ∀ (p : Option NodeId) (t : Tree) (s : Store),
    id < s.size → plant p t (s.modifyNode id f) =
      ((plant p t s).1, (plant p t s).2.modifyNode id f)
  | p, .node head children, s, hid => by
      have hlist := plantList_modifyNode f s.size children (s.addBelow p head)
        ((size_addBelow p head).symm ▸ Nat.lt_succ_of_lt hid)
      rw [plant, size_modifyNode, addBelow_modifyNode hid, hlist]
      exact congrArg _ (modifyNode_comm (Nat.ne_of_gt hid) f _)

theorem plantList_modifyNode (f : Node → Node) : ∀ (p : NodeId) (ts : List Tree) (s : Store),
    id < s.size → plantList p ts (s.modifyNode id f) =
      ((plantList p ts s).1, (plantList p ts s).2.modifyNode id f)
  | p, [], s, hid => rfl
  | p, t :: ts, s, hid => by
      obtain ⟨-, hgrown, -⟩ := grown_plant (P := fun _ => True) (fun _ _ _ _ _ => trivial) (t := t)
        trivial (some p) s
      have hrest := plantList_modifyNode f p ts (plant (some p) t s).2
        (hid.trans_le hgrown.size_le)
      rw [plantList, plant_modifyNode f (some p) t s hid]
      dsimp only
      rw [hrest]
      rfl
end

/-- A planted tree names the parent it is given. -/
theorem plant_some (p : NodeId) (t : Tree) (s : Store) :
    plant (some p) t s = ((plant none t s).1, (plant none t s).2.setParent s.size (some p)) := by
  obtain ⟨head, children⟩ := t
  have hadd : s.addBelow (some p) head = (s.addBelow none head).setParent s.size (some p) := by
    refine eq_of_node (by simp) rfl fun other _ => ?_
    rw [setParent, node_modifyNode, node_addBelow, node_addBelow, size_addBelow]
    by_cases heq : other = s.size
    · simp [heq]
    · simp [heq]
  have hsize : s.size < (s.addBelow none head).size :=
    (size_addBelow none head).symm ▸ Nat.lt_succ_self _
  have hlist : plantList s.size children ((s.addBelow none head).setParent s.size (some p)) =
      ((plantList s.size children (s.addBelow none head)).1,
        (plantList s.size children (s.addBelow none head)).2.setParent s.size (some p)) :=
    plantList_modifyNode _ s.size children _ hsize
  rw [plant, hadd, hlist]
  dsimp only [plant, setParent, mapChildren]
  rw [modifyNode_modifyNode, modifyNode_modifyNode]

theorem setRole_role? : s.setRole id (s.role? id) = s := by
  refine eq_of_node (size_modifyNode _) rfl fun other _ => ?_
  rw [setRole, modifyHead, node_modifyNode]
  split
  case isTrue heq =>
      rw [heq.1]
      rfl
  case isFalse => rfl

mutual
/-- A tree that is added node by node is planted. -/
theorem graft_eq_plant : ∀ (t : Tree) (s : Store), graft t s = plant none t s
  | .node head children, s => by
      have hsize : s.size < (s.addBelow none head).size :=
        (size_addBelow none head).symm ▸ Nat.lt_succ_self _
      obtain ⟨hgrown, -⟩ := grown_plantList (P := fun _ => True) (fun _ _ _ _ _ => trivial)
        (fun t (_ : t ∈ children) => trivial) s.size (s.addBelow none head)
      have hself : ((plantList s.size children (s.addBelow none head)).2.node s.size).children =
          [] := by
        rw [hgrown.node_eq s.size hsize, node_addBelow, if_pos rfl]
      rw [graft, plant]
      refine congrArg (Prod.mk s.size) ?_
      show graftBelow s.size children (s.addBelow none head) = _
      rw [graftBelow_eq_plantList s.size children _ hsize]
      refine modifyNode_congr ?_
      rw [hself]
      rfl

theorem graftBelow_eq_plantList : ∀ (p : NodeId) (ts : List Tree) (s : Store), p < s.size →
    graftBelow p ts s = (plantList p ts s).2.mapChildren p (· ++ (plantList p ts s).1)
  | p, [], s, _ => by
      simp only [graftBelow, plantList, List.append_nil]
      exact modifyNode_self.symm
  | p, t :: ts, s, hp => by
      obtain ⟨hfirst, hgrown, hlt, hparent, -⟩ :=
        grown_plant (P := fun _ => True) (fun _ _ _ _ _ => trivial) (t := t) trivial none s
      have happend : (plant none t s).2.append p s.size =
          (plant (some p) t s).2.mapChildren p (· ++ [s.size]) := by
        rw [append_eq, attach, detach_eq, hparent, plant_some]
      have hrole : (plant none t s).2.role? s.size =
          ((plant none t s).2.append p s.size).role? s.size := by
        rw [role?, role?, append_eq, head_attach]
      have hsize : p < (plant (some p) t s).2.size := by
        rw [plant_some, size_setParent]
        exact hp.trans_le hgrown.size_le
      rw [graftBelow, graft_eq_plant t s]
      dsimp only
      rw [hfirst, hrole, setRole_role?, happend,
        graftBelow_eq_plantList p ts _ (by rwa [size_mapChildren])]
      have hrest : plantList p ts ((plant (some p) t s).2.mapChildren p (· ++ [s.size])) =
          ((plantList p ts (plant (some p) t s).2).1,
            (plantList p ts (plant (some p) t s).2).2.mapChildren p (· ++ [s.size])) :=
        plantList_modifyNode _ p ts _ hsize
      have hid : (plant (some p) t s).1 = s.size := by rw [plant_some, hfirst]
      rw [hrest, plantList]
      simp only [hid, mapChildren, modifyNode_modifyNode, List.append_assoc, List.singleton_append]
end

/-- A tree grows detached. The property has to hold of the trees below a tree as well. -/
theorem grown_graft (hbelow : ∀ head children, P (.node head children) → ∀ c ∈ children, P c)
    {t : Tree} (ht : P t) (s : Store) :
    (s.graft t).1 = s.size ∧ Grown P s (s.graft t).2 [s.size] ∧ s.size < (s.graft t).2.size ∧
      (s.graft t).2.parent? s.size = none ∧ (s.graft t).2.Shows s.size t := by
  rw [graft_eq_plant]
  exact grown_plant hbelow ht none s

/-! ### Links -/

/-- A linked store that has grown by a detached tree is linked. -/
theorem Linked.of_grown (hs : s.Linked) (h : Grown P s s' [id]) (hid : s'.parent? id = none) :
    s'.Linked := by
  have hchildren : ∀ id < s.size, s'.children id = s.children id := by
    intro id hlt
    rw [Store.children, h.node_eq id hlt]
    rfl
  have hparent : ∀ id < s.size, s'.parent? id = s.parent? id := by
    intro id hlt
    rw [parent?, h.node_eq id hlt]
    rfl
  have hroot : s'.root = s.root := by
    rw [root, h.chosenRoot_eq]
    rfl
  refine ⟨?_, ?_, ?_, ?_⟩
  · intro p c
    constructor
    · intro hc
      by_cases hp : p < s.size
      · rw [hchildren p hp] at hc
        rw [hparent c (hs.child_lt hc), hs.parent?_of_mem hc]
      · exact (h.down p c (Nat.le_of_not_lt hp) hc).2.2
    · intro hc
      by_cases hlt : c < s.size
      · rw [hparent c hlt] at hc
        rw [hchildren p (hs.parent_lt hc)]
        exact (hs.linked p c).mpr hc
      · refine (h.up p c (Nat.le_of_not_lt hlt) hc ?_).2
        rw [List.mem_singleton]
        rintro rfl
        rw [hid] at hc
        cases hc
  · intro p
    by_cases hp : p < s.size
    · rw [hchildren p hp]
      exact hs.nodup p
    · exact h.nodup p (Nat.le_of_not_lt hp)
  · rw [hroot]
    exact hs.root_lt.trans_le h.size_le
  · rw [hroot, hparent _ hs.root_lt]
    exact hs.root_parent

/-- A tree that is grafted is a new node, detached. -/
theorem graft_spec (s : Store) (t : Tree) :
    (s.graft t).1 = s.size ∧ Grown (fun _ => True) s (s.graft t).2 [s.size] ∧
      s.size < (s.graft t).2.size ∧ (s.graft t).2.parent? s.size = none := by
  obtain ⟨hid, hgrown, hlt, hparent, -⟩ :=
    grown_graft (P := fun _ => True) (fun _ _ _ _ _ => trivial) (t := t) trivial s
  exact ⟨hid, hgrown, hlt, hparent⟩

/-- The store of a tree is linked. -/
theorem linked_ofTree (t : Tree) : (ofTree t).Linked := by
  obtain ⟨hid, hgrown, hlt, hparent⟩ := graft_spec {} t
  have hroot : (ofTree t).root = 0 := hid
  refine ⟨?_, fun p => hgrown.nodup p (Nat.zero_le _), ?_, ?_⟩
  · intro p c
    constructor
    · intro hc
      exact (hgrown.down p c (Nat.zero_le _) hc).2.2
    · intro hc
      refine (hgrown.up p c (Nat.zero_le _) hc ?_).2
      rw [List.mem_singleton]
      rintro rfl
      exact absurd (hc.symm.trans hparent) (by simp)
  · rw [hroot]
    exact hlt
  · rw [hroot]
    exact hparent

end Store

end ScriptMin
