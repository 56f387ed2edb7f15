import Mathlib.Data.List.Find
import ScriptMin.Pass.Statement
import ScriptMin.Printer.Stored
import ScriptMin.Proofs.Store.Views

/-!
Stores that grow. Nodes are added, also trees of nodes that hang together, while those that were
there stay as they were. What is read off the old nodes is the same as before.
-/

namespace ScriptMin.Store

variable {s s' s'' : Store} {id x y parent child new : NodeId}

theorem new_of_add {head : Head} (h : s.add head = (new, s')) : new = s.size :=
  (congrArg Prod.fst h).symm

/-- Where nothing is above, nothing around it changes a text. -/
theorem render_of_detached (h : s.parent? id = none) (options : PrintOptions) :
    s.render options id = (s.view id).render options := by
  have hcall : s.isUnderCall id = false := by
    rw [isUnderCall, parentKind?, h]
    rfl
  have hsole : s.isSoleArgument id = false := by rw [isSoleArgument, h]
  rw [render, site, hcall, hsole]
  rfl

/-- Nodes are added, and those that were there stay as they were. -/
structure Grows (s s' : Store) : Prop where
  size_le : s.size ≤ s'.size
  chosenRoot_eq : s'.chosenRoot = s.chosenRoot
  node_eq : ∀ x < s.size, s'.node x = s.node x

namespace Grows

theorem refl (s : Store) : Grows s s := ⟨Nat.le_refl _, rfl, fun _ _ => rfl⟩

theorem trans (h : Grows s s') (h' : Grows s' s'') : Grows s s'' where
  size_le := h.size_le.trans h'.size_le
  chosenRoot_eq := h'.chosenRoot_eq.trans h.chosenRoot_eq
  node_eq x hx := (h'.node_eq x (hx.trans_le h.size_le)).trans (h.node_eq x hx)

/-! ### Reading -/

theorem root_eq (h : Grows s s') : s'.root = s.root := by rw [root, root, h.chosenRoot_eq]

theorem head_eq (h : Grows s s') (hx : x < s.size) : s'.head x = s.head x :=
  congrArg Node.head (h.node_eq x hx)

theorem kind_eq (h : Grows s s') (hx : x < s.size) : s'.kind x = s.kind x :=
  congrArg Head.kind (h.head_eq hx)

theorem flags_eq (h : Grows s s') (hx : x < s.size) : s'.flags x = s.flags x :=
  congrArg Head.flags (h.head_eq hx)

theorem role?_eq (h : Grows s s') (hx : x < s.size) : s'.role? x = s.role? x :=
  congrArg Head.role (h.head_eq hx)

theorem children_eq (h : Grows s s') (hx : x < s.size) : s'.children x = s.children x :=
  congrArg Node.children (h.node_eq x hx)

theorem parent?_eq (h : Grows s s') (hx : x < s.size) : s'.parent? x = s.parent? x :=
  congrArg Node.parent (h.node_eq x hx)

theorem nth?_eq (h : Grows s s') (hx : x < s.size) (i : Nat) : s'.nth? x i = s.nth? x i := by
  rw [nth?, nth?, h.children_eq hx]

theorem child?_eq (h : Grows s s') (hs : s.Linked) (hx : x < s.size) (role : Role) :
    s'.child? x role = s.child? x role := by
  rw [child?, child?, h.children_eq hx]
  refine List.find?_congr fun c hc => ?_
  rw [h.role?_eq (hs.child_lt hc)]

theorem expressionOf?_eq (h : Grows s s') (hs : s.Linked) (hx : x < s.size) :
    s'.expressionOf? x = s.expressionOf? x := by
  rw [expressionOf?, expressionOf?, h.kind_eq hx, h.child?_eq hs hx]

theorem parentKind?_eq (h : Grows s s') (hs : s.Linked) (hx : x < s.size) :
    s'.parentKind? x = s.parentKind? x := by
  rw [parentKind?, parentKind?, h.parent?_eq hx]
  cases hp : s.parent? x with
  | none => rfl
  | some p => exact congrArg some (h.kind_eq (hs.parent_lt hp))

theorem indexOf?_eq (h : Grows s s') (hs : s.Linked) (hx : x < s.size) :
    s'.indexOf? x = s.indexOf? x := by
  rw [indexOf?, indexOf?, h.parent?_eq hx]
  cases hp : s.parent? x with
  | none => rfl
  | some p =>
      change (s'.children p).findIdx? _ = (s.children p).findIdx? _
      rw [h.children_eq (hs.parent_lt hp)]

theorem inStatementList_eq (h : Grows s s') (hs : s.Linked) (hx : x < s.size) :
    s'.inStatementList x = s.inStatementList x := by
  rw [inStatementList, inStatementList, h.parentKind?_eq hs hx]

/-- The kinds of what is directly below a node. -/
theorem any_kind_eq (h : Grows s s') (hs : s.Linked) (hx : x < s.size) (test : Kind → Bool) :
    ((s'.children x).any fun c => test (s'.kind c)) =
      (s.children x).any fun c => test (s.kind c) := by
  have hkinds : (s.children x).map s'.kind = (s.children x).map s.kind :=
    List.map_congr_left fun c hc => h.kind_eq (hs.child_lt hc)
  have hany := congrArg (List.any · test) hkinds
  simp only [List.any_map, Function.comp_def] at hany
  rwa [h.children_eq hx]

theorem declaresBlockNames_eq (h : Grows s s') (hs : s.Linked) (hx : x < s.size) :
    s'.declaresBlockNames x = s.declaresBlockNames x := by
  rw [declaresBlockNames, declaresBlockNames, h.children_eq hx, Bool.eq_iff_iff, List.any_eq_true,
    List.any_eq_true]
  refine exists_congr fun c => and_congr_right fun hc => ?_
  rw [h.kind_eq (hs.child_lt hc)]

/-- A line of old nodes is as long as it was. -/
theorem within_iff (h : Grows s s') (hs : s.Linked) (hx : x < s.size) :
    s'.Within x y ↔ s.Within x y :=
  within_congr fun _ hz => h.parent?_eq (hs.within_lt hx hz)

/-- What was there shows what it showed. -/
theorem view_eq (h : Grows s s') (hs : s.Forest) (hs' : s'.Forest) (hx : x < s.size) :
    s'.view x = s.view x := by
  have hlt : ∀ y, s.Within y x → y < s.size := by
    intro y hy
    rcases hy.cases with rfl | ⟨p, hp, -⟩
    · exact hx
    · exact parent?_lt hp
  exact hs'.view_eq ((hs.shows_view x).congr hs.toLinked hs' (fun y hy => h.head_eq (hlt y hy))
    fun y hy => h.children_eq (hlt y hy))

/-- What was there reads as it did. -/
theorem render_eq (h : Grows s s') (hs : s.Forest) (hs' : s'.Forest) (hx : x < s.size)
    (options : PrintOptions) : s'.render options x = s.render options x := by
  have hcall : ∀ y < s.size, s'.isUnderCall y = s.isUnderCall y := by
    intro y hy
    rw [isUnderCall, isUnderCall, h.parentKind?_eq hs.toLinked hy]
  have hsole : s'.isSoleArgument x = s.isSoleArgument x := by
    rw [isSoleArgument, isSoleArgument, h.parent?_eq hx]
    cases hp : s.parent? x with
    | none => rfl
    | some p =>
        have hlt := hs.parent_lt hp
        dsimp only
        rw [h.kind_eq hlt, h.children_eq hlt, hcall p hlt]
  rw [render, render, site, site, h.view_eq hs hs' hx, hcall x hx, hsole]

/-! ### Adding -/

theorem add (h : Grows s s') (head : Head) : Grows s (s'.add head).2 := by
  refine h.trans ⟨by rw [size_add]; exact Nat.le_succ _, rfl, fun x hx => ?_⟩
  rw [node_add, if_neg (Nat.ne_of_lt hx)]

theorem graft (h : Grows s s') (t : Tree) : Grows s (s'.graft t).2 := by
  obtain ⟨-, hgrown, -⟩ := graft_spec s' t
  exact h.trans ⟨hgrown.size_le, hgrown.chosenRoot_eq, hgrown.node_eq⟩

theorem modifyNode (h : Grows s s') (hid : s.size ≤ id) (f : Node → Node) :
    Grows s (s'.modifyNode id f) where
  size_le := by rw [size_modifyNode]; exact h.size_le
  chosenRoot_eq := h.chosenRoot_eq
  node_eq x hx := by
    have hne : ¬ (x = id ∧ id < s'.size) := fun heq => Nat.not_lt.mpr hid (heq.1 ▸ hx)
    rw [node_modifyNode, if_neg hne, h.node_eq x hx]

theorem setRole (h : Grows s s') (hid : s.size ≤ id) (role : Option Role) :
    Grows s (s'.setRole id role) := h.modifyNode hid _

/-- A new node becomes the last child of another one. -/
theorem append (h : Grows s s') (hs : s.Linked) (hs' : s'.Linked) (hparent : s.size ≤ parent)
    (hchild : s.size ≤ child) : Grows s (s'.append parent child) := by
  rw [append_eq, attach, detach_eq]
  cases hp : s'.parent? child with
  | none => exact (h.modifyNode hchild _).modifyNode hparent _
  | some p =>
      -- Only new nodes are above a new node.
      have hple : s.size ≤ p := by
        by_contra hlt
        have hmem := (hs'.linked p child).mpr hp
        rw [h.children_eq (Nat.not_le.mp hlt)] at hmem
        exact Nat.not_lt.mpr hchild (hs.child_lt hmem)
      exact (((h.modifyNode hchild _).modifyNode hple _).modifyNode hchild _).modifyNode hparent _

end Grows

end ScriptMin.Store
