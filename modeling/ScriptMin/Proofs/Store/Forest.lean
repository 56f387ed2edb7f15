import Mathlib.Data.Set.Insert
import Mathlib.Logic.Relation
import ScriptMin.Proofs.Store.Growth

/-!
Stores as forests. Following parents never leads back to where it started. A node can be put
below another one if the other one does not lie below it already; all that edits have to care
about are therefore the lines of ancestors of the nodes that get new children. An edit is steady
for a node if it changes no parent on that node's line.
-/

namespace ScriptMin.Store

variable {s s' s'' : Store} {id parent child old new source target x y z : NodeId}

def Within (s : Store) : NodeId → NodeId → Prop :=
  Relation.ReflTransGen fun c p => s.parent? c = some p

/-- The links agree, and no node lies below itself. -/
structure Forest (s : Store) : Prop extends Linked s where
  acyclic : ∀ id p, s.parent? id = some p → ¬ s.Within p id

/-! ### Lines of ancestors -/

theorem Within.refl : s.Within x x := Relation.ReflTransGen.refl

theorem Within.trans (h : s.Within x y) (h' : s.Within y z) : s.Within x z :=
  Relation.ReflTransGen.trans h h'

theorem within_of_parent (h : s.parent? x = some y) : s.Within x y := Relation.ReflTransGen.single h

theorem Within.cases (h : s.Within x y) : x = y ∨ ∃ p, s.parent? x = some p ∧ s.Within p y :=
  (Relation.ReflTransGen.cases_head h)

/-- Of two nodes on a line one is below the other. -/
theorem Within.total (hy : s.Within x y) (hz : s.Within x z) : s.Within y z ∨ s.Within z y :=
  Relation.ReflTransGen.total_of_right_unique
    (fun _ _ _ hp hq => Option.some_inj.mp (hp.symm.trans hq)) hy hz

theorem Forest.eq_of_within (h : s.Forest) (hxy : s.Within x y) (hyx : s.Within y x) : x = y := by
  by_contra hne
  obtain ⟨p, hp, hpy⟩ := hxy.cases.resolve_left hne
  exact h.acyclic x p hp (hpy.trans hyx)

/-- The line of a node stays if the parents on it stay. -/
theorem within_congr (h : ∀ z, s.Within x z → s'.parent? z = s.parent? z) :
    s'.Within x y ↔ s.Within x y := by
  constructor
  · intro hy
    induction hy with
    | refl => exact .refl
    | tail _ hstep ih => exact ih.tail ((h _ ih).symm.trans hstep)
  · intro hy
    induction hy with
    | refl => exact .refl
    | tail hprev hstep ih => exact ih.tail ((h _ hprev).trans hstep)

/-- Nodes without children are on no other line. -/
theorem Linked.not_within (h : s.Linked) (hchildren : s.children y = []) (hne : x ≠ y) :
    ¬ s.Within x y := by
  intro hy
  rcases Relation.ReflTransGen.cases_tail hy with heq | ⟨z, -, hz⟩
  · exact hne heq.symm
  · have hmem := (h.linked y z).mpr hz
    rw [hchildren] at hmem
    cases hmem

theorem Linked.within_lt (h : s.Linked) (hx : x < s.size) (hy : s.Within x y) : y < s.size := by
  induction hy with
  | refl => exact hx
  | tail _ hstep _ => exact h.parent_lt hstep

namespace Forest

theorem not_within_child (h : s.Forest) (hc : child ∈ s.children id) : ¬ s.Within id child :=
  h.acyclic child id (h.parent?_of_mem hc)

/-- What is on no line of a node has nothing below it that is. -/
theorem not_within_of_child (h : s.Forest) (hoff : ¬ s.Within x id) (hc : child ∈ s.children id) :
    ¬ s.Within x child :=
  fun hx => hoff (hx.trans (within_of_parent (h.parent?_of_mem hc)))

/-- A node is not on the line of another child of its parent. -/
theorem not_within_sibling (h : s.Forest) (hx : s.parent? x = some parent)
    (hy : s.parent? y = some parent) (hne : x ≠ y) : ¬ s.Within x y := by
  intro hxy
  rcases hxy.cases with heq | ⟨p, hp, hpy⟩
  · exact hne heq
  · rw [hx, Option.some_inj] at hp
    exact h.acyclic y p (hp ▸ hy) hpy

/-! ### Moving nodes -/

/-- A forest stays one when nodes that are not on the line of another one move there. -/
theorem of_moved (h : s.Forest) (hlinked : s'.Linked) {M : NodeId → Prop}
    (hparent : ∀ c p, s'.parent? c = some p → s.parent? c = some p ∨ M c ∧ p = target)
    (hoff : ∀ c, M c → ¬ s.Within target c) : s'.Forest := by
  -- A new line goes along an old one, and perhaps on along the one that nodes moved to.
  have hline : ∀ x y, s'.Within x y →
      s.Within x y ∨ (∃ c, M c ∧ s.Within x c) ∧ s.Within target y := by
    intro x y hxy
    induction hxy with
    | refl => exact .inl .refl
    | tail _ hstep ih =>
        rcases hparent _ _ hstep with hold | ⟨hmoved, rfl⟩
        · exact ih.imp (·.tail hold) fun ⟨hc, hb⟩ => ⟨hc, hb.tail hold⟩
        · rcases ih with hb | ⟨hc, -⟩
          · exact .inr ⟨⟨_, hmoved, hb⟩, .refl⟩
          · exact .inr ⟨hc, .refl⟩
  refine ⟨hlinked, fun id p hp hcycle => ?_⟩
  rcases hparent id p hp with hold | ⟨hmoved, rfl⟩
  · rcases hline p id hcycle with hback | ⟨⟨c, hc, hpc⟩, hback⟩
    · exact h.acyclic id p hold hback
    · exact hoff c hc ((hback.tail hold).trans hpc)
  · rcases hline p id hcycle with hback | ⟨-, hback⟩
    · exact hoff id hmoved hback
    · exact hoff id hmoved hback

/-- A forest stays one when nodes lose their parents at most. -/
theorem of_less (h : s.Forest) (hlinked : s'.Linked)
    (hparent : ∀ c p, s'.parent? c = some p → s.parent? c = some p) : s'.Forest :=
  h.of_moved (M := fun _ => False) hlinked (fun c p hp => .inl (hparent c p hp))
    (fun _ (h : False) => (h.elim : ¬ s.Within 0 _))

theorem modifyHead (h : s.Forest) (f : Head → Head) : (s.modifyHead id f).Forest :=
  h.of_less (h.toLinked.modifyHead f) fun c p hp => by rwa [parent?_modifyHead] at hp

theorem detach (h : s.Forest) : (s.detach id).Forest := by
  refine h.of_less h.toLinked.detach fun c p hp => ?_
  rw [parent?_detach] at hp
  split at hp
  · cases hp
  · exact hp

theorem setRole (h : s.Forest) (role : Option Role) : (s.setRole id role).Forest := h.modifyHead _

theorem remove (h : s.Forest) : (s.remove id).Forest := h.detach.setRole none

theorem attach (h : s.Forest) {f : List NodeId → List NodeId}
    (hf : ∀ ids, (f ids).Perm (child :: ids)) (hlt : parent < s.size) (hchild : child < s.size)
    (hroot : child ≠ s.root) (hoff : ¬ s.Within parent child) :
    (s.attach parent f child).Forest := by
  refine h.of_moved (M := (· = child)) (h.toLinked.attach hf hlt hchild hroot) ?_
    (fun c hc => hc ▸ hoff)
  intro c p hp
  rw [parent?_attach hchild] at hp
  split at hp
  · exact .inr ⟨‹_›, (Option.some_inj.mp hp).symm⟩
  · exact .inl hp

theorem add (h : s.Forest) (head : Head) : (s.add head).2.Forest :=
  h.of_less (h.toLinked.add head) fun c p hp => by rwa [parent?_add] at hp

theorem moveChildren (h : s.Forest) (hlt : target < s.size) (hoff : ¬ s.Within target source) :
    (s.moveChildren source target).Forest := by
  refine h.of_moved (M := (· ∈ s.children source)) (h.toLinked.moveChildren hlt) ?_
    (fun c hc => h.not_within_of_child hoff hc)
  intro c p hp
  rw [parent?_moveChildren fun c hc => h.child_lt hc] at hp
  split at hp
  · exact .inr ⟨‹_›, (Option.some_inj.mp hp).symm⟩
  · exact .inl hp

end Forest

theorem Forest.setScope (h : s.Forest) (scope : Option Scope) : (s.setScope id scope).Forest := by
  refine h.of_less ?_ fun c p hp => by rwa [parent?_setScope] at hp
  exact h.toLinked.of_eq (size_setScope scope) rfl (fun _ => children_setScope scope)
    fun _ => parent?_setScope scope

theorem Forest.scan (h : s.Forest) : (s.scan id).Forest := by
  rw [scan_eq]
  exact List.foldlRecOn _ _ h fun _ hs _ _ => hs.setScope _

/-! ### Replacing a node -/

theorem size_replace : (s.replace old new).size = s.size := by
  by_cases hne : old = new
  · rw [replace, if_pos hne]
  · rw [replace_eq hne]
    have hsize : ((s.detach new).setRole new (s.role? old)).size = s.size := by
      rw [setRole, size_modifyHead, size_detach]
    dsimp only
    split
    · rw [size_swap, hsize]
    · split
      · exact hsize
      · exact hsize

/-- What takes the place of a node takes over its role. -/
theorem head_replace (hne : old ≠ new) (hlt : new < s.size) (x : NodeId) :
    (s.replace old new).head x =
      if x = new then { s.head new with role := s.role? old } else s.head x := by
  have hsame : (s.replace old new).head x = ((s.detach new).setRole new (s.role? old)).head x := by
    rw [replace_eq hne]
    dsimp only
    split
    · rw [head_swap]
    · split <;> rfl
  rw [hsame, setRole, head_modifyHead, head_detach, size_detach]
  by_cases hx : x = new
  · subst hx
    rw [if_pos ⟨rfl, hlt⟩, if_pos rfl]
  · rw [if_neg fun h => hx h.1, if_neg hx]

theorem root_replace (hroot : old ≠ s.root) : (s.replace old new).root = s.root := by
  by_cases hne : old = new
  · rw [replace, if_pos hne]
  · have hsame : ((s.detach new).setRole new (s.role? old)).chosenRoot = s.chosenRoot := by
      rw [chosenRoot_setRole, chosenRoot_detach]
    rw [replace_eq hne]
    dsimp only
    split
    · rw [root, chosenRoot_swap, hsame, root]
    · rw [hsame, if_neg]
      · rw [root, hsame, root]
      · intro hchosen
        exact hroot (by rw [root, hchosen, Option.getD_some])

/-- A node that is replaced has no parent afterwards, and the other one has its parent. -/
theorem parent?_replace (hne : old ≠ new) (hlt : new < s.size) :
    (s.replace old new).parent? id =
      if id = new then s.parent? old else if id = old then none else s.parent? id := by
  have hparent : ∀ id, ((s.detach new).setRole new (s.role? old)).parent? id =
      if id = new then none else s.parent? id := by
    intro id
    rw [parent?_setRole, parent?_detach]
  have hsize : ((s.detach new).setRole new (s.role? old)).size = s.size := by
    rw [setRole, size_modifyHead, size_detach]
  rw [replace_eq hne]
  dsimp only
  rw [hparent, if_neg hne]
  cases hold : s.parent? old with
  | some p =>
      dsimp only
      rw [parent?_swap (by rw [hsize]; exact parent?_lt hold) (by rwa [hsize]), hparent]
      split
      · rfl
      · rfl
  | none =>
      dsimp only
      have hsame : (if ((s.detach new).setRole new (s.role? old)).chosenRoot = some old then
            ((s.detach new).setRole new (s.role? old)).setRoot new
          else (s.detach new).setRole new (s.role? old)).parent? id =
          ((s.detach new).setRole new (s.role? old)).parent? id := by
        split <;> rfl
      rw [hsame, hparent]
      split
      · rfl
      · split
        case isTrue heq => rw [heq, hold]
        case isFalse => rfl

/-- A node can take the place of another one unless it is above it. -/
theorem Forest.replace (h : s.Forest) (hlt : new < s.size) (hroot : new ≠ s.root)
    (hoff : ¬ s.Within old new) : (s.replace old new).Forest := by
  have hne : old ≠ new := by
    rintro rfl
    exact hoff .refl
  cases hold : s.parent? old with
  | none =>
      refine h.of_less (h.toLinked.replace hlt hroot) fun c p hp => ?_
      rw [parent?_replace hne hlt, hold] at hp
      split at hp
      · cases hp
      · split at hp
        · cases hp
        · exact hp
  | some p =>
      refine h.of_moved (M := (· = new)) (h.toLinked.replace hlt hroot) (fun c q hq => ?_)
        (fun c (hc : c = new) => (?_ : ¬ s.Within p c))
      · rw [parent?_replace hne hlt, hold] at hq
        split at hq
        · exact .inr ⟨‹_›, (Option.some_inj.mp hq).symm⟩
        · split at hq
          · cases hq
          · exact .inl hq
      · subst hc
        exact fun hp => hoff ((within_of_parent hold).trans hp)

/-! ### Growing -/

/-- A forest that has grown by a detached tree is one. -/
theorem Forest.of_grown {P : Tree → Prop} (hs : s.Forest) (h : Grown P s s' [id])
    (hid : s'.parent? id = none) : s'.Forest := by
  have hparent : ∀ id < s.size, s'.parent? id = s.parent? id := by
    intro id hlt
    rw [parent?, h.node_eq id hlt]
    rfl
  refine ⟨hs.toLinked.of_grown h hid, fun c p hp hcycle => ?_⟩
  by_cases hc : c < s.size
  · rw [hparent c hc] at hp
    refine hs.acyclic c p hp ((within_congr fun z hz => ?_).mp hcycle)
    exact hparent z (hs.toLinked.within_lt (hs.parent_lt hp) hz)
  · -- Parents of new nodes are new and come first.
    have hnew : ∀ c p, s.size ≤ c → s'.parent? c = some p → s.size ≤ p ∧ p < c := by
      intro c p hc hp
      have hne : c ∉ [id] := by
        rw [List.mem_singleton]
        rintro rfl
        rw [hid] at hp
        cases hp
      obtain ⟨hle, hmem⟩ := h.up p c hc hp hne
      exact ⟨hle, (h.down p c hle hmem).1⟩
    have hle : ∀ x, s.size ≤ x → ∀ y, s'.Within x y → s.size ≤ y ∧ y ≤ x := by
      intro x hx y hxy
      induction hxy with
      | refl => exact ⟨hx, Nat.le_refl _⟩
      | tail _ hstep ih =>
          obtain ⟨hle, hlt⟩ := hnew _ _ ih.1 hstep
          exact ⟨hle, hlt.le.trans ih.2⟩
    obtain ⟨hp', hlt⟩ := hnew c p (Nat.le_of_not_lt hc) hp
    exact absurd (hle p hp' c hcycle).2 (Nat.not_le.mpr hlt)

theorem Forest.graft (h : s.Forest) (t : Tree) : (s.graft t).2.Forest := by
  obtain ⟨-, hgrown, -, hparent⟩ := graft_spec s t
  exact h.of_grown hgrown hparent

/-- The store of a tree is a forest. -/
theorem forest_ofTree (t : Tree) : (ofTree t).Forest := by
  obtain ⟨-, hgrown, -, hparent⟩ := graft_spec {} t
  refine ⟨linked_ofTree t, ?_⟩
  intro c p hp hcycle
  have hnew : ∀ c p, (ofTree t).parent? c = some p → p < c := by
    intro c p hp
    have hne : c ∉ [0] := by
      rw [List.mem_singleton]
      rintro rfl
      exact absurd (hp.symm.trans hparent) (by simp)
    obtain ⟨hle, hmem⟩ := hgrown.up p c (Nat.zero_le _) hp hne
    exact (hgrown.down p c hle hmem).1
  have hle : ∀ x y, (ofTree t).Within x y → y ≤ x := by
    intro x y hxy
    induction hxy with
    | refl => exact Nat.le_refl _
    | tail _ hstep ih => exact (hnew _ _ hstep).le.trans ih
  exact absurd (hle p c hcycle) (Nat.not_le.mpr (hnew c p hp))

/-! ### Steady edits -/

/-- A node can be put below another one: it is in the store and not its root. -/
structure Loose (s : Store) (id : NodeId) : Prop where
  lt : id < s.size
  ne_root : id ≠ s.root

theorem Linked.loose_of_mem (h : s.Linked) (hc : child ∈ s.children id) : s.Loose child :=
  ⟨h.child_lt hc, h.ne_root (h.parent?_of_mem hc)⟩

/-- A forest has the nodes of an earlier one, and the lines of some of them as they were. -/
structure Steady (S : Set NodeId) (s s' : Store) : Prop where
  forest : s'.Forest
  size_le : s.size ≤ s'.size
  root_eq : s'.root = s.root
  line : ∀ x ∈ S, ∀ z, s.Within x z → s'.parent? z = s.parent? z

variable {S S' : Set NodeId}

namespace Steady

theorem refl (h : s.Forest) : Steady S s s := ⟨h, Nat.le_refl _, rfl, fun _ _ _ _ => rfl⟩

theorem within_iff (h : Steady S s s') (hx : x ∈ S) : s'.Within x y ↔ s.Within x y :=
  within_congr (h.line x hx)

theorem trans (h : Steady S s s') (h' : Steady S s' s'') : Steady S s s'' where
  forest := h'.forest
  size_le := h.size_le.trans h'.size_le
  root_eq := h'.root_eq.trans h.root_eq
  line x hx z hz := (h'.line x hx z ((h.within_iff hx).mpr hz)).trans (h.line x hx z hz)

theorem mono (h : Steady S s s') (hS : S' ⊆ S) : Steady S' s s' :=
  ⟨h.forest, h.size_le, h.root_eq, fun x hx => h.line x (hS hx)⟩

theorem lt (h : Steady S s s') (hx : x < s.size) : x < s'.size := hx.trans_le h.size_le

theorem loose (h : Steady S s s') (hx : s.Loose x) : s'.Loose x :=
  ⟨h.lt hx.lt, by rw [h.root_eq]; exact hx.ne_root⟩

theorem parent?_eq (h : Steady S s s') (hx : x ∈ S) : s'.parent? x = s.parent? x :=
  h.line x hx x .refl

/-- New nodes are on no old line. -/
theorem not_within_new (h : Steady S s s') (hs : s.Linked) (hx : x ∈ S) (hlt : x < s.size)
    (hnew : s.size ≤ new) : ¬ s'.Within x new := by
  rw [h.within_iff hx]
  exact fun hy => absurd (hs.within_lt hlt hy) (Nat.not_lt.mpr hnew)

end Steady

/-- An edit is steady if no node that changes its parent is on a line. -/
theorem Forest.steady (h' : s'.Forest) (hsize : s.size ≤ s'.size) (hroot : s'.root = s.root)
    {M : NodeId → Prop} (hparent : ∀ z, ¬ M z → s'.parent? z = s.parent? z)
    (hoff : ∀ z, M z → ∀ x ∈ S, ¬ s.Within x z) : Steady S s s' :=
  ⟨h', hsize, hroot, fun x hx z hz => hparent z fun hmoved => hoff z hmoved x hx hz⟩

theorem steady_modifyHead (h : s.Forest) (f : Head → Head) : Steady S s (s.modifyHead id f) :=
  (h.modifyHead f).steady (M := fun _ => False) (size_modifyHead f).ge rfl
    (fun _ _ => parent?_modifyHead f) fun _ h => h.elim

theorem steady_setRole (h : s.Forest) (id : NodeId) (role : Option Role) :
    Steady S s (s.setRole id role) :=
  steady_modifyHead h _

theorem steady_remove (h : s.Forest) (hoff : ∀ x ∈ S, ¬ s.Within x id) :
    Steady S s (s.remove id) := by
  have hdetach : Steady S s (s.detach id) := by
    refine h.detach.steady (M := (· = id)) size_detach.ge ?_ ?_ fun z hz => hz ▸ hoff
    · rw [root, root, chosenRoot_detach]
    · intro z hz
      rw [parent?_detach, if_neg hz]
  exact hdetach.trans (steady_setRole hdetach.forest id none)

/-- A node that can be put below another one is on none of some lines. -/
structure Movable (S : Set NodeId) (s : Store) (id : NodeId) : Prop extends Loose s id where
  off : ∀ x ∈ S, ¬ s.Within x id

theorem Movable.of_steady (hid : Movable S s id) (h : Steady S s s') : Movable S s' id where
  toLoose := h.loose hid.toLoose
  off x hx := by
    rw [h.within_iff hx]
    exact hid.off x hx

/-- What is below a node that can be moved can be moved. -/
theorem Movable.of_child (hid : Movable S s id) (h : s.Forest) (hc : child ∈ s.children id) :
    Movable S s child :=
  ⟨h.toLinked.loose_of_mem hc, fun x hx => h.not_within_of_child (hid.off x hx) hc⟩

theorem Forest.movable_child (h : s.Forest) (hc : child ∈ s.children id) : Movable {id} s child :=
  ⟨h.toLinked.loose_of_mem hc, fun _ hx => hx ▸ h.not_within_child hc⟩

theorem steady_attach (h : s.Forest) {f : List NodeId → List NodeId}
    (hf : ∀ ids, (f ids).Perm (child :: ids)) (hlt : parent < s.size) (hchild : Movable S s child)
    (hparent : ¬ s.Within parent child) : Steady S s (s.attach parent f child) := by
  refine (h.attach hf hlt hchild.lt hchild.ne_root hparent).steady (M := (· = child))
    size_attach.ge ?_ ?_ fun z hz => hz ▸ hchild.off
  · rw [root, root, chosenRoot_attach]
  · intro z hz
    rw [parent?_attach hchild.lt, if_neg hz]

theorem steady_append (h : s.Forest) (hlt : parent < s.size) (hchild : Movable S s child)
    (hparent : ¬ s.Within parent child) : Steady S s (s.append parent child) :=
  steady_attach h (fun ids => List.perm_append_singleton child ids) hlt hchild hparent

theorem steady_insert (h : s.Forest) (index : Nat) (hlt : parent < s.size)
    (hchild : Movable S s child) (hparent : ¬ s.Within parent child) :
    Steady S s (s.insert parent index child) :=
  steady_attach h (fun ids => List.perm_insertIdx child ids (Nat.min_le_right _ _)) hlt hchild
    hparent

theorem steady_add (h : s.Forest) (head : Head) : Steady S s (s.add head).2 :=
  (h.add head).steady (M := fun _ => False) (by rw [size_add]; exact Nat.le_succ _) rfl
    (fun _ _ => parent?_add head) fun _ h => h.elim

/-- Only the node itself is on the line of one without a parent. -/
theorem not_within_of_parent (hparent : s.parent? x = none) (hne : x ≠ y) : ¬ s.Within x y := by
  intro hy
  rcases hy.cases with heq | ⟨p, hp, -⟩
  · exact hne heq
  · rw [hparent] at hp
    cases hp

/-! ### New nodes -/

theorem singleton_lt (hid : id < s.size) : ∀ x ∈ ({id} : Set NodeId), x < s.size := by
  rintro x rfl
  exact hid

/-- A new node, which is below no other one yet. -/
structure Built (S : Set NodeId) (s s' : Store) (new : NodeId) : Prop extends Steady S s s' where
  size_le_new : s.size ≤ new
  loose_new : s'.Loose new
  parent_new : s'.parent? new = none

theorem Forest.built_add {head : Head} (h : s.Forest) (hadd : s.add head = (new, s')) :
    Built S s s' new ∧ s'.children new = [] := by
  obtain rfl : s.size = new := congrArg Prod.fst hadd
  obtain rfl : (s.add head).2 = s' := congrArg Prod.snd hadd
  refine ⟨⟨steady_add h head, Nat.le_refl _, ⟨?_, Nat.ne_of_gt h.root_lt⟩, ?_⟩, ?_⟩
  · rw [size_add]
    exact Nat.lt_succ_self _
  · rw [parent?_add, parent?_of_size_le (Nat.le_refl _)]
  · rw [children_add, children_of_size_le (Nat.le_refl _)]

namespace Built

theorem modifyHead (h : Built S s s' new) (f : Head → Head) :
    Built S s (s'.modifyHead id f) new where
  toSteady := h.toSteady.trans (steady_modifyHead h.forest f)
  size_le_new := h.size_le_new
  loose_new := (steady_modifyHead (S := S) h.forest f).loose h.loose_new
  parent_new := by rw [parent?_modifyHead, h.parent_new]

theorem setRole (h : Built S s s' new) (id : NodeId) (role : Option Role) :
    Built S s (s'.setRole id role) new :=
  h.modifyHead _

/-- A new node gets another node as its last child. -/
theorem append (h : Built S s s' new) (hchild : Movable S s' child) (hne : new ≠ child) :
    Built S s (s'.append new child) new := by
  have happend := steady_append h.forest h.loose_new.lt hchild
    (not_within_of_parent h.parent_new hne)
  refine ⟨h.toSteady.trans happend, h.size_le_new, happend.loose h.loose_new, ?_⟩
  rw [append_eq, parent?_attach hchild.lt, if_neg hne, h.parent_new]

theorem foldl_append {ids : List NodeId} (h : Built S s s' new)
    (hids : ∀ c ∈ ids, Movable S s' c ∧ new ≠ c) :
    Built S s (ids.foldl (fun s c => s.append new c) s') new := by
  induction ids generalizing s' with
  | nil => exact h
  | cons first rest ih =>
      rw [List.forall_mem_cons] at hids
      have hfirst := h.append hids.1.1 hids.1.2
      have hstep := steady_append h.forest h.loose_new.lt hids.1.1
        (not_within_of_parent h.parent_new hids.1.2)
      exact ih hfirst fun c hc => ⟨(hids.2 c hc).1.of_steady hstep, (hids.2 c hc).2⟩

/-- New nodes are on no old line. -/
theorem movable (h : Built S s s' new) (hs : s.Linked) (hlt : ∀ x ∈ S, x < s.size) :
    Movable S s' new :=
  ⟨h.loose_new, fun x hx => h.toSteady.not_within_new hs hx (hlt x hx) h.size_le_new⟩

/-- A new node takes the place of an old one. -/
theorem replace (h : Built {old} s s' new) (hs : s.Linked) (hold : old < s.size) :
    (s'.replace old new).Forest :=
  h.forest.replace h.loose_new.lt h.loose_new.ne_root
    (h.toSteady.not_within_new hs rfl hold h.size_le_new)

end Built

/-- Edits of one node after the other. -/
theorem steady_foldl (f : Store → NodeId → Store) (ids : List NodeId) (h : s.Forest)
    (hf : ∀ id ∈ ids, ∀ s', Steady S s s' → Steady S s' (f s' id)) :
    Steady S s (ids.foldl f s) := by
  induction ids generalizing s with
  | nil => exact .refl h
  | cons id rest ih =>
      have hfirst := hf id List.mem_cons_self s (.refl h)
      refine hfirst.trans (ih hfirst.forest fun other hother s' hs => ?_)
      exact hf other (List.mem_cons_of_mem _ hother) s' (hfirst.trans hs)

theorem steady_graft (h : s.Forest) (t : Tree) (hlt : ∀ x ∈ S, x < s.size) :
    Steady S s (s.graft t).2 := by
  obtain ⟨-, hgrown, -, -⟩ := graft_spec s t
  refine ⟨h.graft t, hgrown.size_le, ?_, ?_⟩
  · rw [root, root, hgrown.chosenRoot_eq]
  · intro x hx z hz
    rw [parent?, hgrown.node_eq z (h.toLinked.within_lt (hlt x hx) hz)]
    rfl

theorem Forest.built_graft {t : Tree} (h : s.Forest) (hlt : ∀ x ∈ S, x < s.size)
    (hgraft : s.graft t = (new, s')) : Built S s s' new := by
  obtain ⟨hsize, -, hlt', hparent⟩ := graft_spec s t
  have hsteady := steady_graft (S := S) h t hlt
  rw [hgraft] at hsize hlt' hparent hsteady
  obtain rfl : new = s.size := hsize
  refine ⟨hsteady, Nat.le_refl _, ⟨hlt', ?_⟩, hparent⟩
  rw [hsteady.root_eq]
  exact Nat.ne_of_gt h.root_lt

/-! ### Replacing by what is no ancestor -/

theorem Forest.replace_new (h : s.Forest) (hnew : s.Loose new) (hchildren : s.children new = []) :
    (s.replace old new).Forest := by
  by_cases heq : old = new
  · rw [Store.replace, if_pos heq]
    exact h
  · exact h.replace hnew.lt hnew.ne_root (h.toLinked.not_within hchildren heq)

theorem chosenRoot_replace (hold : s.parent? old = some parent) :
    (s.replace old new).chosenRoot = s.chosenRoot := by
  by_cases hne : old = new
  · rw [Store.replace, if_pos hne]
  · rw [replace_eq hne]
    dsimp only
    rw [parent?_setRole, parent?_detach, if_neg hne, hold]
    dsimp only
    rw [chosenRoot_swap, chosenRoot_setRole, chosenRoot_detach]

/-- A node takes the place of one that is not the root. -/
theorem steady_replace (h : s.Forest) (hold : s.parent? old = some parent)
    (hoff : ∀ x ∈ S, ¬ s.Within x old) (hnew : Movable S s new) (hne : ¬ s.Within old new) :
    Steady S s (s.replace old new) := by
  have hdiffer : old ≠ new := by
    rintro rfl
    exact hne .refl
  refine (h.replace hnew.lt hnew.ne_root hne).steady (M := fun z => z = old ∨ z = new)
    size_replace.ge ?_ ?_ ?_
  · rw [root, root, chosenRoot_replace hold]
  · intro z hz
    rw [not_or] at hz
    rw [parent?_replace hdiffer hnew.lt, if_neg hz.2, if_neg hz.1]
  · rintro z (rfl | rfl)
    · exact hoff
    · exact hnew.off

theorem Forest.replace_child (h : s.Forest) (hc : child ∈ s.children old) :
    (s.replace old child).Forest :=
  have hloose := h.toLinked.loose_of_mem hc
  h.replace hloose.lt hloose.ne_root (h.not_within_child hc)

end ScriptMin.Store
