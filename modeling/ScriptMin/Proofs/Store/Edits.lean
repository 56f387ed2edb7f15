import Mathlib.Data.List.InsertIdx
import ScriptMin.Tree.Store

/-!
What edits leave in a store. Every edit is told by the heads, the parents and the children it
leaves, node by node.
-/

namespace ScriptMin.Store

variable {s : Store} {id other parent child old new : NodeId}

/-! ### Changing nodes -/

@[simp] theorem size_modifyNode (f : Node → Node) : (s.modifyNode id f).size = s.size := by
  simp [modifyNode, size]

@[simp] theorem root_modifyNode (f : Node → Node) : (s.modifyNode id f).root = s.root := rfl

@[simp] theorem chosenRoot_modifyNode (f : Node → Node) :
    (s.modifyNode id f).chosenRoot = s.chosenRoot := rfl

theorem node_of_size_le (h : s.size ≤ id) : s.node id = default := by
  rw [node, Array.getElem?_eq_none h, Option.getD_none]

theorem node_modifyNode (f : Node → Node) :
    (s.modifyNode id f).node other =
      if other = id ∧ id < s.size then f (s.node other) else s.node other := by
  by_cases hother : other < s.size
  · have hlt : other < (s.nodes.modify id f).size := by simpa [size] using hother
    simp only [node, modifyNode, Array.getElem?_eq_getElem hlt, Option.getD_some,
      Array.getElem_modify]
    by_cases heq : id = other
    · subst heq
      simp [hother, show id < s.nodes.size from hother]
    · simp [heq, Ne.symm heq, show other < s.nodes.size from hother]
  · have hle : s.size ≤ other := Nat.le_of_not_lt hother
    have hne : ¬ (other = id ∧ id < s.size) := fun h => hother (h.1 ▸ h.2)
    rw [node_of_size_le (s := s.modifyNode id f) (by simpa using hle), node_of_size_le hle,
      if_neg hne]

theorem parent?_lt (h : s.parent? id = some parent) : id < s.size := by
  by_contra hid
  rw [parent?, node_of_size_le (Nat.le_of_not_lt hid)] at h
  cases h

theorem parent?_of_size_le (h : s.size ≤ id) : s.parent? id = none := by
  rw [parent?, node_of_size_le h]
  rfl

theorem children_of_size_le (h : s.size ≤ id) : s.children id = [] := by
  rw [children, node_of_size_le h]
  rfl

theorem lt_of_mem_children (h : child ∈ s.children id) : id < s.size := by
  by_contra hid
  rw [children_of_size_le (Nat.le_of_not_lt hid)] at h
  cases h

/-! ### Heads -/

@[simp] theorem size_modifyHead (f : Head → Head) : (s.modifyHead id f).size = s.size :=
  size_modifyNode _

@[simp] theorem root_modifyHead (f : Head → Head) : (s.modifyHead id f).root = s.root := rfl

@[simp] theorem chosenRoot_modifyHead (f : Head → Head) :
    (s.modifyHead id f).chosenRoot = s.chosenRoot := rfl

theorem head_modifyHead (f : Head → Head) :
    (s.modifyHead id f).head other =
      if other = id ∧ id < s.size then f (s.head other) else s.head other := by
  rw [head, modifyHead, node_modifyNode]
  split <;> rfl

@[simp] theorem parent?_modifyHead (f : Head → Head) :
    (s.modifyHead id f).parent? other = s.parent? other := by
  rw [parent?, modifyHead, node_modifyNode]
  split <;> rfl

@[simp] theorem children_modifyHead (f : Head → Head) :
    (s.modifyHead id f).children other = s.children other := by
  rw [children, modifyHead, node_modifyNode]
  split <;> rfl

@[simp] theorem scope?_modifyHead (f : Head → Head) :
    (s.modifyHead id f).scope? other = s.scope? other := by
  rw [scope?, modifyHead, node_modifyNode]
  split <;> rfl

/-! ### Parents and children -/

def setParent (id : NodeId) (parent : Option NodeId) (s : Store) : Store :=
  s.modifyNode id fun n => { n with parent }

def mapChildren (id : NodeId) (f : List NodeId → List NodeId) (s : Store) : Store :=
  s.modifyNode id fun n => { n with children := f n.children }

@[simp] theorem head_setParent (p : Option NodeId) : (s.setParent id p).head other = s.head other := by
  rw [head, setParent, node_modifyNode]
  split <;> rfl

@[simp] theorem children_setParent (p : Option NodeId) :
    (s.setParent id p).children other = s.children other := by
  rw [children, setParent, node_modifyNode]
  split <;> rfl

@[simp] theorem scope?_setParent (p : Option NodeId) :
    (s.setParent id p).scope? other = s.scope? other := by
  rw [scope?, setParent, node_modifyNode]
  split <;> rfl

theorem parent?_setParent (p : Option NodeId) :
    (s.setParent id p).parent? other =
      if other = id ∧ id < s.size then p else s.parent? other := by
  rw [parent?, setParent, node_modifyNode]
  split <;> rfl

@[simp] theorem head_mapChildren (f : List NodeId → List NodeId) :
    (s.mapChildren id f).head other = s.head other := by
  rw [head, mapChildren, node_modifyNode]
  split <;> rfl

@[simp] theorem parent?_mapChildren (f : List NodeId → List NodeId) :
    (s.mapChildren id f).parent? other = s.parent? other := by
  rw [parent?, mapChildren, node_modifyNode]
  split <;> rfl

@[simp] theorem scope?_mapChildren (f : List NodeId → List NodeId) :
    (s.mapChildren id f).scope? other = s.scope? other := by
  rw [scope?, mapChildren, node_modifyNode]
  split <;> rfl

theorem children_mapChildren (f : List NodeId → List NodeId) :
    (s.mapChildren id f).children other =
      if other = id ∧ id < s.size then f (s.children other) else s.children other := by
  rw [children, mapChildren, node_modifyNode]
  split <;> rfl

@[simp] theorem size_setParent (p : Option NodeId) : (s.setParent id p).size = s.size :=
  size_modifyNode _

@[simp] theorem size_mapChildren (f : List NodeId → List NodeId) :
    (s.mapChildren id f).size = s.size :=
  size_modifyNode _

@[simp] theorem chosenRoot_setParent (p : Option NodeId) :
    (s.setParent id p).chosenRoot = s.chosenRoot := rfl

@[simp] theorem chosenRoot_mapChildren (f : List NodeId → List NodeId) :
    (s.mapChildren id f).chosenRoot = s.chosenRoot := rfl

/-! ### Scopes -/

def setScope (id : NodeId) (scope : Option Scope) (s : Store) : Store :=
  s.modifyNode id fun n => { n with scope }

@[simp] theorem head_setScope (scope : Option Scope) :
    (s.setScope id scope).head other = s.head other := by
  rw [head, setScope, node_modifyNode]
  split <;> rfl

@[simp] theorem children_setScope (scope : Option Scope) :
    (s.setScope id scope).children other = s.children other := by
  rw [children, setScope, node_modifyNode]
  split <;> rfl

@[simp] theorem parent?_setScope (scope : Option Scope) :
    (s.setScope id scope).parent? other = s.parent? other := by
  rw [parent?, setScope, node_modifyNode]
  split <;> rfl

@[simp] theorem size_setScope (scope : Option Scope) : (s.setScope id scope).size = s.size :=
  size_modifyNode _

theorem scope?_setScope (scope : Option Scope) : (s.setScope id scope).scope? other =
    if other = id ∧ id < s.size then scope else s.scope? other := by
  rw [scope?, setScope, node_modifyNode]
  split <;> rfl

theorem scan_eq : s.scan id =
    (s.scanOwners id).foldl (fun acc owner => acc.setScope owner (some (s.view owner).scope)) s :=
  rfl

/-! ### Taking a node away -/

theorem detach_eq : s.detach id =
    match s.parent? id with
    | none => s
    | some parent => (s.setParent id none).mapChildren parent (·.filter (· ≠ id)) :=
  rfl

@[simp] theorem size_detach : (s.detach id).size = s.size := by
  rw [detach_eq]
  split <;> simp

@[simp] theorem chosenRoot_detach : (s.detach id).chosenRoot = s.chosenRoot := by
  rw [detach_eq]
  split <;> simp

@[simp] theorem head_detach : (s.detach id).head other = s.head other := by
  rw [detach_eq]
  split <;> simp

@[simp] theorem scope?_detach : (s.detach id).scope? other = s.scope? other := by
  rw [detach_eq]
  split <;> simp

theorem parent?_detach :
    (s.detach id).parent? other = if other = id then none else s.parent? other := by
  rw [detach_eq]
  split
  case h_1 hnone =>
      split
      case isTrue heq => rw [heq, hnone]
      case isFalse => rfl
  case h_2 p hparent =>
      have hid := parent?_lt hparent
      simp [parent?_setParent, hid]

theorem children_detach :
    (s.detach id).children other =
      if s.parent? id = some other then (s.children other).filter (· ≠ id)
      else s.children other := by
  rw [detach_eq]
  split
  case h_1 hnone => simp [hnone]
  case h_2 p hparent =>
      rw [children_mapChildren, hparent]
      by_cases heq : other = p
      · subst heq
        by_cases hlt : other < s.size
        · simp [hlt]
        · simp [hlt, children_of_size_le (Nat.le_of_not_lt hlt)]
      · simp [heq, Ne.symm heq]

/-! ### Putting a node below another one -/

def attach (parent : NodeId) (f : List NodeId → List NodeId) (child : NodeId) (s : Store) : Store :=
  ((s.detach child).setParent child (some parent)).mapChildren parent f

theorem append_eq : s.append parent child = s.attach parent (· ++ [child]) child := rfl

theorem insert_eq (index : Nat) :
    s.insert parent index child =
      s.attach parent (fun ids => ids.insertIdx (min index ids.length) child) child :=
  rfl

variable {f : List NodeId → List NodeId}

@[simp] theorem size_attach : (s.attach parent f child).size = s.size := by
  simp [attach]

@[simp] theorem chosenRoot_attach : (s.attach parent f child).chosenRoot = s.chosenRoot := by
  simp [attach]

@[simp] theorem head_attach : (s.attach parent f child).head other = s.head other := by
  simp [attach]

@[simp] theorem scope?_attach : (s.attach parent f child).scope? other = s.scope? other := by
  simp [attach]

theorem parent?_attach (h : child < s.size) :
    (s.attach parent f child).parent? other =
      if other = child then some parent else s.parent? other := by
  simp only [attach, parent?_mapChildren, parent?_setParent, size_detach, h, and_true,
    parent?_detach]
  split <;> rfl

theorem children_attach (h : parent < s.size) :
    (s.attach parent f child).children other =
      if other = parent then f ((s.detach child).children other)
      else (s.detach child).children other := by
  simp only [attach, children_mapChildren, size_setParent, size_detach, h, and_true,
    children_setParent]

/-! ### Adding a node -/

@[simp] theorem size_add (h : Head) : (s.add h).2.size = s.size + 1 := by
  simp [add, size]

@[simp] theorem chosenRoot_add (h : Head) : (s.add h).2.chosenRoot = s.chosenRoot := rfl

theorem node_add (h : Head) :
    (s.add h).2.node other = if other = s.size then { head := h } else s.node other := by
  simp only [add, node, size, Array.getElem?_push]
  by_cases heq : other = s.nodes.size
  · simp [heq]
  · simp [heq]

theorem head_add (h : Head) :
    (s.add h).2.head other = if other = s.size then h else s.head other := by
  rw [head, node_add]
  split <;> rfl

@[simp] theorem scope?_add (h : Head) : (s.add h).2.scope? other = s.scope? other := by
  rw [scope?, node_add]
  split
  case isTrue heq =>
      rw [scope?, node_of_size_le (Nat.le_of_eq heq.symm)]
      rfl
  case isFalse => rfl

@[simp] theorem children_add (h : Head) : (s.add h).2.children other = s.children other := by
  rw [children, node_add]
  split
  case isTrue heq => rw [children_of_size_le (Nat.le_of_eq heq.symm)]
  case isFalse => rfl

@[simp] theorem parent?_add (h : Head) : (s.add h).2.parent? other = s.parent? other := by
  rw [parent?, node_add]
  split
  case isTrue heq =>
      rw [parent?, node_of_size_le (Nat.le_of_eq heq.symm)]
      rfl
  case isFalse => rfl

/-! ### Replacing a node -/

theorem replaceFirst_eq_map {ids : List NodeId} (h : ids.Nodup) :
    replaceFirst old new ids = ids.map fun id => if id = old then new else id := by
  induction ids with
  | nil => rfl
  | cons id rest ih =>
      rw [List.nodup_cons] at h
      rw [replaceFirst]
      split
      case isTrue heq =>
          rw [List.map_cons, if_pos heq]
          congr 1
          rw [List.map_congr_left (g := fun id => id), List.map_id']
          intro other hother
          refine if_neg fun hold => h.1 ?_
          rwa [heq, ← hold]
      case isFalse hne => rw [List.map_cons, if_neg hne, ih h.2]

/-- Puts a detached node in the place of another one. -/
def swap (parent old new : NodeId) (s : Store) : Store :=
  ((s.setParent old none).mapChildren parent (replaceFirst old new)).setParent new (some parent)

theorem parent?_swap (hold : old < s.size) (hnew : new < s.size) :
    (s.swap parent old new).parent? id =
      if id = new then some parent else if id = old then none else s.parent? id := by
  simp only [swap, parent?_setParent, parent?_mapChildren, size_mapChildren, size_setParent, hold,
    hnew, and_true]

theorem children_swap (hparent : parent < s.size) (hnodup : (s.children parent).Nodup) :
    (s.swap parent old new).children id =
      if id = parent then (s.children id).map fun c => if c = old then new else c
      else s.children id := by
  simp only [swap, children_setParent, children_mapChildren, size_setParent, hparent, and_true]
  split
  case isTrue heq =>
      subst heq
      exact replaceFirst_eq_map hnodup
  case isFalse => rfl

@[simp] theorem head_swap : (s.swap parent old new).head id = s.head id := by
  simp [swap]

@[simp] theorem scope?_swap : (s.swap parent old new).scope? id = s.scope? id := by
  simp [swap]

@[simp] theorem chosenRoot_swap : (s.swap parent old new).chosenRoot = s.chosenRoot := by
  simp [swap]

@[simp] theorem size_swap : (s.swap parent old new).size = s.size := by
  simp [swap]

theorem role?_detach : (s.detach child).role? id = s.role? id := by
  rw [role?, head_detach]
  rfl

theorem chosenRoot_setRole (role : Option Role) :
    (s.setRole id role).chosenRoot = s.chosenRoot := rfl

theorem replace_eq (hne : old ≠ new) :
    s.replace old new =
      let s := (s.detach new).setRole new (s.role? old)
      match s.parent? old with
      | some parent => s.swap parent old new
      | none => if s.chosenRoot = some old then s.setRoot new else s := by
  rw [replace, if_neg hne]
  simp only [role?_detach]
  rfl

theorem parent?_setRole (role : Option Role) : (s.setRole old role).parent? id = s.parent? id :=
  parent?_modifyHead _

theorem parent?_append (hchild : child < s.size) :
    (s.append parent child).parent? id = if id = child then some parent else s.parent? id := by
  rw [append_eq, parent?_attach hchild]

theorem parent?_insert (hchild : child < s.size) (index : Nat) :
    (s.insert parent index child).parent? id =
      if id = child then some parent else s.parent? id := by
  rw [insert_eq, parent?_attach hchild]

/-! ### Moving children -/

theorem foldl_setParent_eq (target : NodeId) (ids : List NodeId) :
    (∀ id, (ids.foldl (fun s c => s.modifyNode c fun n => { n with parent := some target })
      s).head id = s.head id) ∧
    (∀ id, (ids.foldl (fun s c => s.modifyNode c fun n => { n with parent := some target })
      s).children id = s.children id) ∧
    (ids.foldl (fun s c => s.modifyNode c fun n => { n with parent := some target }) s).size =
      s.size ∧
    (ids.foldl (fun s c => s.modifyNode c fun n => { n with parent := some target })
      s).chosenRoot = s.chosenRoot ∧
    ((∀ id ∈ ids, id < s.size) → ∀ id,
      (ids.foldl (fun s c => s.modifyNode c fun n => { n with parent := some target })
        s).parent? id = if id ∈ ids then some target else s.parent? id) := by
  induction ids generalizing s with
  | nil => simp
  | cons first rest ih =>
      obtain ⟨hhead, hchildren, hsize, hroot, hparent⟩ := ih (s := s.setParent first (some target))
      rw [List.foldl_cons]
      refine ⟨fun id => (hhead id).trans (head_setParent _),
        fun id => (hchildren id).trans (children_setParent _), hsize.trans (size_setParent _),
        hroot, ?_⟩
      intro hlt id
      refine (hparent (fun id hid => ?_) id).trans ?_
      · rw [size_setParent]
        exact hlt id (List.mem_cons_of_mem _ hid)
      · rw [parent?_setParent]
        have := hlt first List.mem_cons_self
        by_cases hrest : id ∈ rest
        · simp [hrest]
        · by_cases hfirst : id = first
          · simp [hfirst, this]
          · simp [hrest, hfirst]

theorem scope?_foldl_setParent (target : NodeId) (ids : List NodeId) (id : NodeId) :
    (ids.foldl (fun s c => s.modifyNode c fun n => { n with parent := some target }) s).scope? id =
      s.scope? id := by
  induction ids generalizing s with
  | nil => rfl
  | cons first rest ih => exact (ih (s := s.setParent first (some target))).trans (scope?_setParent _)

theorem children_emptied {source : NodeId} :
    (s.mapChildren source fun _ => []).children id = if id = source then [] else s.children id := by
  rw [children_mapChildren]
  by_cases hid : id = source
  · subst hid
    by_cases hlt : id < s.size
    · simp [hlt]
    · simp [hlt, children_of_size_le (Nat.le_of_not_lt hlt)]
  · simp [hid]

variable {source target : NodeId}

theorem moveChildren_eq : s.moveChildren source target =
    ((s.children source).foldl (fun s c => s.modifyNode c fun n => { n with parent := some target })
      (s.mapChildren source fun _ => [])).mapChildren target (· ++ s.children source) :=
  rfl

@[simp] theorem head_moveChildren : (s.moveChildren source target).head id = s.head id := by
  rw [moveChildren_eq, head_mapChildren, (foldl_setParent_eq target _).1, head_mapChildren]

@[simp] theorem scope?_moveChildren : (s.moveChildren source target).scope? id = s.scope? id := by
  rw [moveChildren_eq, scope?_mapChildren, scope?_foldl_setParent, scope?_mapChildren]

@[simp] theorem size_moveChildren : (s.moveChildren source target).size = s.size := by
  rw [moveChildren_eq, size_mapChildren, (foldl_setParent_eq target _).2.2.1, size_mapChildren]

@[simp] theorem chosenRoot_moveChildren :
    (s.moveChildren source target).chosenRoot = s.chosenRoot := by
  rw [moveChildren_eq, chosenRoot_mapChildren, (foldl_setParent_eq target _).2.2.2.1]
  rfl

theorem children_moveChildren (h : target < s.size) :
    (s.moveChildren source target).children id =
      if id = target then (if id = source then [] else s.children id) ++ s.children source
      else if id = source then [] else s.children id := by
  rw [moveChildren_eq, children_mapChildren, (foldl_setParent_eq target _).2.2.1,
    (foldl_setParent_eq target _).2.1, size_mapChildren, children_emptied]
  simp only [h, and_true]

theorem parent?_moveChildren (h : ∀ c ∈ s.children source, c < s.size) :
    (s.moveChildren source target).parent? id =
      if id ∈ s.children source then some target else s.parent? id := by
  rw [moveChildren_eq, parent?_mapChildren, (foldl_setParent_eq target _).2.2.2.2 (by simpa using h),
    parent?_mapChildren]

end ScriptMin.Store
