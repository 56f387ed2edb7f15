import Mathlib.Data.List.Nodup
import Mathlib.Order.Nat
import ScriptMin.Proofs.Store.Edits

/-!
Links of parents and children. In a linked store the children of a node are exactly the nodes
that have it as their parent, each of them once, and the root has no parent. All edits keep a
store linked, whatever nodes they move, as long as the root is not put below another node.
-/

namespace ScriptMin.Store

variable {s s' : Store} {id parent child old new source target : NodeId}

theorem mem_of_child? {role : Role} (h : s.child? id role = some child) : child ∈ s.children id :=
  List.mem_of_find?_eq_some h

theorem mem_of_nth? {i : Nat} (h : s.nth? id i = some child) : child ∈ s.children id :=
  List.mem_of_getElem? h

theorem role?_of_child? {role : Role} (h : s.child? id role = some child) :
    s.role? child = some role := by
  have := List.find?_some h
  exact eq_of_beq this

/-- The links of parents and children agree. -/
structure Linked (s : Store) : Prop where
  linked : ∀ parent child, child ∈ s.children parent ↔ s.parent? child = some parent
  nodup : ∀ id, (s.children id).Nodup
  root_lt : s.root < s.size
  root_parent : s.parent? s.root = none

namespace Linked

theorem parent?_of_mem (h : s.Linked) (hc : child ∈ s.children id) : s.parent? child = some id :=
  (h.linked id child).mp hc

theorem child_lt (h : s.Linked) (hchild : child ∈ s.children id) : child < s.size :=
  parent?_lt (h.parent?_of_mem hchild)

theorem parent_lt (h : s.Linked) (hparent : s.parent? id = some parent) : parent < s.size :=
  lt_of_mem_children ((h.linked parent id).mpr hparent)

theorem ne_root (h : s.Linked) (hparent : s.parent? id = some parent) : id ≠ s.root := by
  rintro rfl
  rw [h.root_parent] at hparent
  cases hparent

/-- Stores with the same links. -/
theorem of_eq (h : s.Linked) (hsize : s'.size = s.size) (hroot : s'.root = s.root)
    (hchildren : ∀ id, s'.children id = s.children id)
    (hparent : ∀ id, s'.parent? id = s.parent? id) : s'.Linked where
  linked parent child := by rw [hchildren, hparent, h.linked]
  nodup id := by rw [hchildren]; exact h.nodup id
  root_lt := by rw [hroot, hsize]; exact h.root_lt
  root_parent := by rw [hroot, hparent]; exact h.root_parent

theorem modifyHead (h : s.Linked) (f : Head → Head) : (s.modifyHead id f).Linked :=
  h.of_eq (size_modifyHead f) rfl (fun _ => children_modifyHead f) fun _ => parent?_modifyHead f

theorem setRole (h : s.Linked) (role : Option Role) : (s.setRole id role).Linked :=
  h.modifyHead _

/-! ### Taking a node away -/

theorem mem_children_detach (h : s.Linked) :
    id ∈ (s.detach child).children parent ↔ id ∈ s.children parent ∧ id ≠ child := by
  rw [children_detach]
  split
  case isTrue => simp
  case isFalse hparent =>
      refine ⟨fun hid => ⟨hid, ?_⟩, And.left⟩
      rintro rfl
      exact hparent (h.parent?_of_mem hid)

theorem sublist_children_detach : List.Sublist ((s.detach child).children id) (s.children id) := by
  rw [children_detach]
  split
  · exact List.filter_sublist
  · exact List.Sublist.refl _

theorem detach (h : s.Linked) : (s.detach child).Linked where
  linked p c := by
    rw [h.mem_children_detach, parent?_detach, h.linked]
    split
    case isTrue heq => simp [heq]
    case isFalse hne => simp [hne]
  nodup p := (h.nodup p).sublist sublist_children_detach
  root_lt := by
    rw [size_detach, root, chosenRoot_detach]
    exact h.root_lt
  root_parent := by
    rw [parent?_detach, root, chosenRoot_detach]
    split
    · rfl
    · exact h.root_parent

/-! ### Putting a node below another one -/

theorem attach (h : s.Linked) {f : List NodeId → List NodeId}
    (hf : ∀ ids, (f ids).Perm (child :: ids)) (hlt : parent < s.size) (hchild : child < s.size)
    (hroot : child ≠ s.root) : (s.attach parent f child).Linked := by
  have hdetach : (s.detach child).Linked := h.detach
  have hnone : ∀ id, child ∉ (s.detach child).children id := by
    intro id hmem
    exact (h.mem_children_detach.mp hmem).2 rfl
  have hrootEq : (s.attach parent f child).root = s.root := by rw [root, root, chosenRoot_attach]
  refine ⟨?_, ?_, ?_, ?_⟩
  · intro p c
    rw [children_attach hlt, parent?_attach hchild]
    have hlinked := hdetach.linked p c
    rw [parent?_detach] at hlinked
    by_cases hp : p = parent
    · rw [if_pos hp, (hf _).mem_iff, List.mem_cons, hlinked]
      by_cases hc : c = child
      · simp [hc, hp]
      · simp [hc]
    · rw [if_neg hp, hlinked]
      by_cases hc : c = child
      · simp [hc, Ne.symm hp]
      · simp [hc]
  · intro p
    rw [children_attach hlt]
    split
    · exact (hf _).nodup_iff.mpr (List.nodup_cons.mpr ⟨hnone p, hdetach.nodup p⟩)
    · exact hdetach.nodup p
  · rw [hrootEq, size_attach]
    exact h.root_lt
  · rw [hrootEq, parent?_attach hchild, if_neg hroot.symm, h.root_parent]

/-! ### Replacing a node -/

theorem swap (h : s.Linked) (hold : s.parent? old = some parent) (hnew : s.parent? new = none)
    (hlt : new < s.size) (hroot : new ≠ s.root) : (s.swap parent old new).Linked := by
  have hne : old ≠ new := by
    rintro rfl
    rw [hold] at hnew
    cases hnew
  have hmem := (h.linked parent old).mpr hold
  have hnone : ∀ p, new ∉ s.children p := by
    intro p hp
    rw [h.parent?_of_mem hp] at hnew
    cases hnew
  have hchildren : ∀ id, (s.swap parent old new).children id =
      if id = parent then (s.children id).map fun c => if c = old then new else c
      else s.children id :=
    fun _ => children_swap (h.parent_lt hold) (h.nodup parent)
  have hparents : ∀ id, (s.swap parent old new).parent? id =
      if id = new then some parent else if id = old then none else s.parent? id :=
    fun _ => parent?_swap (parent?_lt hold) hlt
  refine ⟨?_, ?_, h.root_lt.trans_eq size_swap.symm, ?_⟩
  · intro p c
    rw [hchildren, hparents]
    by_cases hp : p = parent
    · subst hp
      rw [if_pos rfl, List.mem_map]
      by_cases hc : c = new
      · rw [if_pos hc, hc]
        exact iff_of_true ⟨old, hmem, if_pos rfl⟩ rfl
      · rw [if_neg hc]
        by_cases hc' : c = old
        · rw [if_pos hc', hc']
          refine iff_of_false ?_ (by simp)
          rintro ⟨d, -, hd⟩
          split at hd
          · exact hne hd.symm
          · exact absurd hd ‹_›
        · rw [if_neg hc', ← h.linked]
          constructor
          · rintro ⟨d, hd, heq⟩
            split at heq
            · exact absurd heq.symm hc
            · exact heq ▸ hd
          · intro hcmem
            exact ⟨c, hcmem, if_neg hc'⟩
    · rw [if_neg hp, h.linked]
      by_cases hc : c = new
      · rw [if_pos hc, hc, hnew]
        simp [Ne.symm hp]
      · rw [if_neg hc]
        by_cases hc' : c = old
        · rw [if_pos hc', hc', hold]
          simp [Ne.symm hp]
        · rw [if_neg hc']
  · intro p
    rw [hchildren]
    split
    · refine (h.nodup p).map_on ?_
      intro a ha b hb heq
      split at heq <;> split at heq
      · rw [‹a = old›, ‹b = old›]
      · exact absurd (heq ▸ hb) (hnone p)
      · exact absurd (heq ▸ ha) (hnone p)
      · exact heq
    · exact h.nodup p
  · rw [show (s.swap parent old new).root = s.root from rfl, hparents, if_neg hroot.symm]
    split
    · rfl
    · exact h.root_parent

/-- A node that is put in the place of another one, but of none, becomes the root if the other
one is chosen as the root. -/
theorem replace (h : s.Linked) (hlt : new < s.size) (hroot : new ≠ s.root) :
    (s.replace old new).Linked := by
  by_cases hne : old = new
  · rw [Store.replace, if_pos hne]
    exact h
  rw [replace_eq hne]
  have hmoved : ((s.detach new).setRole new (s.role? old)).Linked := h.detach.setRole _
  have hnone : ((s.detach new).setRole new (s.role? old)).parent? new = none := by
    rw [parent?_setRole, parent?_detach, if_pos rfl]
  have hsize : ((s.detach new).setRole new (s.role? old)).size = s.size := by
    rw [Store.setRole, size_modifyHead, size_detach]
  have hrootEq : ((s.detach new).setRole new (s.role? old)).root = s.root := by
    rw [root, root, Store.setRole, chosenRoot_modifyHead, chosenRoot_detach]
  dsimp only
  split
  · exact hmoved.swap ‹_› hnone (hlt.trans_eq hsize.symm) (by rwa [hrootEq])
  · split
    · refine ⟨hmoved.linked, hmoved.nodup, ?_, hnone⟩
      exact hlt.trans_eq hsize.symm
    · exact hmoved

/-! ### Moving children -/

theorem moveChildren (h : s.Linked) (hlt : target < s.size) :
    (s.moveChildren source target).Linked := by
  have hparent : ∀ id, (s.moveChildren source target).parent? id =
      if id ∈ s.children source then some target else s.parent? id :=
    fun _ => parent?_moveChildren fun c hc => h.child_lt hc
  have hroot : (s.moveChildren source target).root = s.root := by
    rw [root, root, chosenRoot_moveChildren]
  refine ⟨?_, ?_, ?_, ?_⟩
  · intro p c
    have hlink := h.linked p c
    have hfrom := h.linked source c
    rw [children_moveChildren hlt, hparent]
    grind
  · intro p
    rw [children_moveChildren hlt]
    split
    case isTrue hp =>
        split
        · simpa using h.nodup source
        case isFalse hps =>
            refine List.nodup_append.mpr ⟨h.nodup p, h.nodup source, ?_⟩
            rintro a ha b hb rfl
            have := (h.parent?_of_mem ha).symm.trans (h.parent?_of_mem hb)
            exact hps (Option.some_inj.mp this)
    case isFalse =>
        split
        · exact List.nodup_nil
        · exact h.nodup p
  · rw [hroot, size_moveChildren]
    exact h.root_lt
  · rw [hroot, hparent, if_neg, h.root_parent]
    intro hmem
    exact h.ne_root (h.parent?_of_mem hmem) rfl

/-! ### Adding a node -/

theorem add (h : s.Linked) (head : Head) : (s.add head).2.Linked where
  linked p c := by rw [children_add, parent?_add]; exact h.linked p c
  nodup p := by rw [children_add]; exact h.nodup p
  root_lt := by rw [size_add]; exact Nat.lt_succ_of_lt h.root_lt
  root_parent := by rw [parent?_add]; exact h.root_parent

end Linked

end ScriptMin.Store
