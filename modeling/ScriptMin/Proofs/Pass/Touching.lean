import Mathlib.Data.List.Find
import ScriptMin.Proofs.Pass.Removals
import ScriptMin.Proofs.Store.Courses

/-!
Edits that touch few nodes. An edit may change the children of some nodes, and their roles; the
other nodes that were there keep theirs, and all keep what they are. Main statement: where the
events of the touched nodes are what they were, those of all nodes are.
-/

namespace ScriptMin

/-- Whether the kind is one of the nodes that come in where lists of declarations are dissolved. -/
def Kind.isMade : Kind → Bool
  | .declaration | .identifier | .assign | .comma | .semicolon => true
  | _ => false

namespace Store

variable {s s' s'' : Store} {id x y c d p parent child old new source target : NodeId}
  {L : Prop} {D D' A A' T : NodeId → Prop} {keep : Event → Bool}

/-- An edit changes the rows of some nodes at most, and finds a place for some nodes at most that
had none. Lists of declarations keep their roles, unless they are touched themselves, only they get
declarations, and it is said whether there may be new ones. -/
structure Touches (L : Prop) (D A : NodeId → Prop) (s s' : Store) : Prop where
  size_le : s.size ≤ s'.size
  root_eq : s'.root = s.root
  bare_eq : ∀ x < s.size, (s'.head x).bare = (s.head x).bare
  row : ∀ x < s.size, ¬ D x → s'.children x = s.children x
  role : ∀ x < s.size, ¬ D x → ∀ c ∈ s.children x, s'.role? c = s.role? c
  listRole : ∀ x < s.size, ¬ D x → s.kind x = .varList → s'.role? x = s.role? x
  loose : ∀ x < s.size, ¬ A x → s.parent? x = none → s'.parent? x = none
  made : ∀ x, s.size ≤ x → x < s'.size → (s'.kind x).isMade ∨ L ∧ s'.kind x = .varList
  listed : ∀ x y, s'.kind x = .declaration → s'.parent? x = some y →
    s.parent? x = some y ∨ s'.kind y = .varList

namespace Touches

theorem refl (D A : NodeId → Prop) (s : Store) : Touches L D A s s :=
  ⟨Nat.le_refl _, rfl, fun _ _ => rfl, fun _ _ _ => rfl, fun _ _ _ _ _ => rfl, fun _ _ _ _ => rfl,
    fun _ _ _ h => h, fun _ hle hlt => absurd hlt (Nat.not_lt_of_le hle), fun _ _ _ => .inl⟩

theorem lt (h : Touches L D A s s') (hx : x < s.size) : x < s'.size := hx.trans_le h.size_le

theorem kind_eq (h : Touches L D A s s') (hx : x < s.size) : s'.kind x = s.kind x :=
  Head.kind_of_bare (h.bare_eq x hx)

/-- What is of another kind than new nodes was there before. -/
theorem lt_of_not_isMade (h : Touches False D A s s') (hx : x < s'.size)
    (hmade : (s'.kind x).isMade = false) : x < s.size := by
  refine Nat.lt_of_not_le fun hle => ?_
  rcases h.made x hle hx with hbad | hbad
  · rw [hmade] at hbad
    cases hbad
  · exact hbad.1

/-- What has a place had one before, unless it is new. -/
theorem exists_parent (h : Touches L D (fun _ => False) s s') (hx : s'.parent? x = some y)
    (hlt : x < s.size) : ∃ q, s.parent? x = some q := by
  refine Option.ne_none_iff_exists'.mp fun hnone => ?_
  rw [h.loose x hlt not_false hnone] at hx
  cases hx

theorem text?_eq (h : Touches L D A s s') (hx : x < s.size) : s'.text? x = s.text? x :=
  Head.text?_of_bare (h.bare_eq x hx)

theorem text_eq (h : Touches L D A s s') (hx : x < s.size) : s'.text x = s.text x :=
  Thins.text_eq_of_text? (h.text?_eq hx)

theorem trans (h : Touches L D A s s') (h' : Touches L D' A' s' s'') :
    Touches L (fun x => D x ∨ D' x) (fun x => A x ∨ A' x) s s'' where
  size_le := h.size_le.trans h'.size_le
  root_eq := h'.root_eq.trans h.root_eq
  bare_eq x hx := (h'.bare_eq x (h.lt hx)).trans (h.bare_eq x hx)
  row x hx hD := by
    rw [not_or] at hD
    rw [h'.row x (h.lt hx) hD.2, h.row x hx hD.1]
  role x hx hD c hc := by
    rw [not_or] at hD
    rw [h'.role x (h.lt hx) hD.2 c (by rwa [h.row x hx hD.1]), h.role x hx hD.1 c hc]
  listRole x hx hD hkind := by
    rw [not_or] at hD
    rw [h'.listRole x (h.lt hx) hD.2 ((h.kind_eq hx).trans hkind), h.listRole x hx hD.1 hkind]
  loose x hx hA hparent := by
    rw [not_or] at hA
    exact h'.loose x (h.lt hx) hA.2 (h.loose x hx hA.1 hparent)
  made x hle hlt := by
    by_cases hx : x < s'.size
    · rw [h'.kind_eq hx]
      exact h.made x hle hx
    · exact h'.made x (Nat.le_of_not_lt hx) hlt
  listed x y hkind hparent := by
    rcases h'.listed x y hkind hparent with hparent' | hlist
    · rw [h'.kind_eq (parent?_lt hparent')] at hkind
      refine (h.listed x y hkind hparent').imp_right fun hlist => ?_
      rw [h'.kind_eq (lt_of_kind (by simp [hlist])), hlist]
    · exact .inr hlist

/-- Only nodes that were there count, and of those that get a place only those that had none. -/
theorem mono (h : Touches L D A s s') (hD : ∀ x < s.size, D x → D' x)
    (hA : ∀ x < s.size, s.parent? x = none → A x → A' x) : Touches L D' A' s s' where
  size_le := h.size_le
  root_eq := h.root_eq
  bare_eq := h.bare_eq
  row x hx hD' := h.row x hx fun hx' => hD' (hD x hx hx')
  role x hx hD' := h.role x hx fun hx' => hD' (hD x hx hx')
  listRole x hx hD' := h.listRole x hx fun hx' => hD' (hD x hx hx')
  loose x hx hA' hparent := h.loose x hx (fun hx' => hA' (hA x hx hparent hx')) hparent
  made := h.made
  listed := h.listed

/-- It is no more to say that there may be new lists. -/
theorem loosen (h : Touches L D A s s') : Touches True D A s s' :=
  { h with made := fun x hle hlt => (h.made x hle hlt).imp_right fun hlist => ⟨trivial, hlist.2⟩ }

/-- Declarations stay where they are if nodes that come somewhere are none. -/
theorem listed_of_parent (hparent : ∀ x y, s'.parent? x = some y →
    s.parent? x = some y ∨ s'.kind x ≠ .declaration) (x y : NodeId)
    (hkind : s'.kind x = .declaration) (hx : s'.parent? x = some y) :
    s.parent? x = some y ∨ s'.kind y = .varList :=
  .inl ((hparent x y hx).resolve_right fun hne => hne hkind)

end Touches

theorem not_lt_of_size_eq {P : Prop} (hsize : s'.size = s.size) (hle : s.size ≤ x)
    (hlt : x < s'.size) : P := absurd (hsize ▸ hlt) (Nat.not_lt_of_le hle)

/-! ### Edits -/

theorem touches_add (h : s.Linked) {head : Head}
    (hmade : head.kind.isMade ∨ L ∧ head.kind = .varList) :
    Touches L (fun _ => False) (fun _ => False) s (s.add head).2 where
  size_le := by
    rw [size_add]
    exact Nat.le_succ _
  root_eq := rfl
  bare_eq x hx := by rw [head_add, if_neg (Nat.ne_of_lt hx)]
  row x _ _ := children_add _
  role x _ _ c hc := by
    rw [role?, head_add, if_neg (Nat.ne_of_lt (h.child_lt hc))]
    rfl
  listRole x hx _ _ := by
    rw [role?, head_add, if_neg (Nat.ne_of_lt hx)]
    rfl
  loose x _ _ hparent := by rwa [parent?_add]
  made x hle hlt := by
    rw [size_add] at hlt
    rw [kind, head_add, if_pos (Nat.le_antisymm (Nat.le_of_lt_succ hlt) hle)]
    exact hmade
  listed x y _ hx := by
    rw [parent?_add] at hx
    exact .inl hx

theorem touches_of_add (h : s.Linked) {head : Head}
    (hmade : head.kind.isMade ∨ L ∧ head.kind = .varList) (hadd : s.add head = (new, s')) :
    Touches L (fun _ => False) (fun _ => False) s s' := by
  obtain rfl : (s.add head).2 = s' := congrArg Prod.snd hadd
  exact touches_add h hmade

theorem touches_setRole (h : s.Linked) (id : NodeId) (role : Option Role) :
    Touches L (fun x => s.parent? id = some x ∨ s.kind id = .varList ∧ x = id) (fun _ => False) s
      (s.setRole id role) where
  size_le := (size_modifyHead _).ge
  root_eq := rfl
  bare_eq _ _ := bare_setRole
  row _ _ _ := children_modifyHead _
  role x _ hx c hc := by
    refine role?_setRole_of_ne ?_ role
    rintro rfl
    exact hx (.inl (h.parent?_of_mem hc))
  listRole x _ hx hkind := by
    refine role?_setRole_of_ne ?_ role
    rintro rfl
    exact hx (.inr ⟨hkind, rfl⟩)
  loose x _ _ hparent := by rwa [parent?_setRole]
  made _ hle hlt := not_lt_of_size_eq (size_modifyHead _) hle hlt
  listed x y _ hx := by
    rw [parent?_setRole] at hx
    exact .inl hx

theorem touches_detach : Touches L (s.parent? id = some ·) (fun _ => False) s (s.detach id) where
  size_le := size_detach.ge
  root_eq := congrArg (·.getD 0) chosenRoot_detach
  bare_eq _ _ := congrArg Head.bare head_detach
  row x _ hx := by rw [children_detach, if_neg hx]
  role _ _ _ c _ := role?_detach
  listRole _ _ _ _ := role?_detach
  loose x _ _ hparent := by
    rw [parent?_detach, hparent]
    exact ite_self _
  made _ hle hlt := not_lt_of_size_eq size_detach hle hlt
  listed x y _ hx := by
    rw [parent?_detach] at hx
    split at hx
    · cases hx
    · exact .inl hx

theorem touches_remove (h : s.Linked) :
    Touches L (fun x => s.parent? id = some x ∨ s.kind id = .varList ∧ x = id) (fun _ => False) s
      (s.remove id) := by
  refine (touches_detach.trans (touches_setRole h.detach id none)).mono ?_ (by simp)
  rintro x - (hx | hx | hx)
  · exact .inl hx
  · rw [parent?_detach, if_pos rfl] at hx
    cases hx
  · rw [kind, head_detach] at hx
    exact .inr hx

theorem touches_attach {f : List NodeId → List NodeId} (hparent : parent < s.size)
    (hchild : child < s.size) (hlist : s.kind child = .declaration → s.kind parent = .varList) :
    Touches L (fun x => x = parent ∨ s.parent? child = some x) (· = child) s
      (s.attach parent f child) where
  size_le := size_attach.ge
  root_eq := congrArg (·.getD 0) chosenRoot_attach
  bare_eq _ _ := congrArg Head.bare head_attach
  row x _ hx := by
    rw [not_or] at hx
    rw [children_attach hparent, if_neg hx.1, children_detach, if_neg hx.2]
  role _ _ _ c _ := by rw [role?, head_attach]; rfl
  listRole _ _ _ _ := by rw [role?, head_attach]; rfl
  loose x _ hx hnone := by rwa [parent?_attach hchild, if_neg hx]
  made _ hle hlt := not_lt_of_size_eq size_attach hle hlt
  listed x y hkind hx := by
    rw [kind, head_attach] at hkind ⊢
    rw [parent?_attach hchild] at hx
    split at hx
    case isTrue heq =>
        subst heq
        exact .inr (Option.some_inj.mp hx ▸ hlist hkind)
    case isFalse => exact .inl hx

section

variable (hparent : parent < s.size) (hchild : child < s.size)
  (hlist : s.kind child = .declaration → s.kind parent = .varList)
include hparent hchild hlist

theorem touches_append : Touches L (fun x => x = parent ∨ s.parent? child = some x) (· = child) s
    (s.append parent child) := by
  rw [append_eq]
  exact touches_attach hparent hchild hlist

theorem touches_insert (index : Nat) : Touches L (fun x => x = parent ∨ s.parent? child = some x)
    (· = child) s (s.insert parent index child) := by
  rw [insert_eq]
  exact touches_attach hparent hchild hlist

end

/-- A detached node takes the place of another one. -/
theorem touches_replace (h : s.Linked) (hold : s.parent? old = some p) (hlt : new < s.size)
    (hnew : s.parent? new = none) (hkind : s.kind new ≠ .varList)
    (hdeclaration : s.kind new ≠ .declaration) :
    Touches L (· = p) (· = new) s (s.replace old new) := by
  have hne : old ≠ new := by
    rintro rfl
    rw [hnew] at hold
    cases hold
  have hbare : ∀ x, ((s.replace old new).head x).bare = (s.head x).bare := by
    intro x
    rw [head_replace hne hlt]
    split
    case isTrue heq => rw [heq]; rfl
    case isFalse => rfl
  refine ⟨size_replace.ge, root_replace (h.ne_root hold), fun x _ => hbare x, fun x _ hx => ?_,
    fun x _ hx c hc => ?_, fun x _ _ hlist => ?_, fun x _ hx hparent => ?_,
    fun _ => not_lt_of_size_eq size_replace, Touches.listed_of_parent fun x y hx => ?_⟩
  · rw [children_replace h hold hnew hne, if_neg hx]
  · rw [role?, head_replace hne hlt, if_neg]
    · rfl
    rintro rfl
    have hlink := h.parent?_of_mem hc
    rw [hnew] at hlink
    cases hlink
  · rw [role?, head_replace hne hlt, if_neg]
    · rfl
    rintro rfl
    exact hkind hlist
  · rw [parent?_replace hne hlt, if_neg hx, hparent]
    exact ite_self _
  · rw [parent?_replace hne hlt] at hx
    split at hx
    case isTrue heq =>
        refine .inr ?_
        rw [kind, Head.kind_of_bare (hbare x), heq]
        exact hdeclaration
    case isFalse =>
        split at hx
        · cases hx
        · exact .inl hx

theorem touches_moveChildren (h : s.Linked) (hlt : target < s.size)
    (hlist : s.kind target = .varList) :
    Touches L (fun x => x = source ∨ x = target) (fun _ => False) s
      (s.moveChildren source target) where
  size_le := size_moveChildren.ge
  root_eq := congrArg (·.getD 0) chosenRoot_moveChildren
  bare_eq _ _ := congrArg Head.bare head_moveChildren
  row x _ hx := by
    rw [not_or] at hx
    rw [children_moveChildren hlt, if_neg hx.2, if_neg hx.1]
  role _ _ _ c _ := by rw [role?, head_moveChildren]; rfl
  listRole _ _ _ _ := by rw [role?, head_moveChildren]; rfl
  loose x _ _ hparent := by
    rw [parent?_moveChildren fun c hc => h.child_lt hc, if_neg]
    · exact hparent
    intro hx
    rw [h.parent?_of_mem hx] at hparent
    cases hparent
  made _ hle hlt := not_lt_of_size_eq size_moveChildren hle hlt
  listed x y _ hx := by
    rw [parent?_moveChildren fun c hc => h.child_lt hc] at hx
    split at hx
    · refine .inr ?_
      rw [← Option.some_inj.mp hx, kind, head_moveChildren]
      exact hlist
    · exact .inl hx

/-! ### What stays at a node -/

namespace Touches

variable (h : Touches L D A s s') (hs : s.Linked)
include h

theorem child?_eq (hx : x < s.size) (hD : ¬ D x) (role : Role) :
    s'.child? x role = s.child? x role := by
  rw [child?, child?, h.row x hx hD]
  exact List.find?_congr fun c hc => by rw [h.role x hx hD c hc]

theorem onward_eq (hx : x < s.size) (hD : ¬ D x) : s'.onward x = s.onward x := by
  rw [onward, onward, h.kind_eq hx, h.child?_eq hx hD, h.child?_eq hx hD, h.row x hx hD]

theorem isInitialized_eq (hx : x < s.size) (hD : ¬ D x) :
    Declarations.isInitialized s' x = Declarations.isInitialized s x := by
  rw [Declarations.isInitialized, Declarations.isInitialized, h.child?_eq hx hD, h.child?_eq hx hD]

theorem isExpression_eq (hx : x < s.size) : (s'.head x).isExpression = (s.head x).isExpression := by
  have hbare : ∀ head : Head, head.isExpression = head.bare.isExpression := fun _ => rfl
  rw [hbare, h.bare_eq x hx, ← hbare]

theorem target_eq (hx : x < s.size) : s'.target x = s.target x := by
  rw [target, target, h.kind_eq hx, h.text_eq hx]

include hs

theorem declaredTarget_eq (hx : x < s.size) (hD : ¬ D x) :
    s'.declaredTarget x = s.declaredTarget x := by
  rw [declaredTarget, declaredTarget, h.child?_eq hx hD, h.text_eq hx]
  cases hnames : s.child? x .names with
  | none => rfl
  | some pattern => exact h.target_eq (hs.child_lt (mem_of_child? hnames))

theorem event?_eq (hx : x < s.size) (hD : ¬ D x) : s'.event? x = s.event? x := by
  have hop : (s'.head x).assignOp = (s.head x).assignOp :=
    show (s'.head x).bare.assignOp = (s.head x).bare.assignOp by rw [h.bare_eq x hx]
  have htarget : ∀ c ∈ s.children x, s'.target c = s.target c := fun c hc =>
    h.target_eq (hs.child_lt hc)
  rw [event?, event?, h.kind_eq hx, h.child?_eq hx hD, h.declaredTarget_eq hs hx hD, hop,
    h.row x hx hD, h.isExpression_eq hx]
  split
  · rfl
  · rfl
  · split
    case h_1 left right _ hrow => rw [htarget left (by rw [hrow]; exact List.mem_cons_self)]
    case h_2 => rfl
  · rfl

end Touches

/-! ### Events -/

theorem Within.lt_of_lt (hx : s.Within x y) (hy : y < s.size) : x < s.size := by
  rcases hx.cases with rfl | ⟨p, hp, -⟩
  · exact hy
  · exact parent?_lt hp

/-- Where the touched nodes have the events they had, all nodes have, apart from some below touched
ones. -/
theorem Touches.events_eq (h : Touches L D A s s') (hs : s.Forest) (hs' : s'.Forest)
    (hbelow : ∀ x y, T x → s.parent? x = some y → D y ∨ T y)
    (htouched : ∀ y < s.size, D y → ¬ T y → (∀ x, s.Within x y → x ≠ y → ¬ T x →
      s'.events keep x = s.events keep x) → s'.events keep y = s.events keep y)
    (hlt : y < s.size) (hy : ¬ T y) : s'.events keep y = s.events keep y := by
  induction y using hs.descend_within with
  | step y ih =>
      have hsame : ∀ x, s.Within x y → x ≠ y → ¬ T x → s'.events keep x = s.events keep x :=
        fun x hx hne hT => ih x hx hne (hx.lt_of_lt hlt) hT
      by_cases hD : D y
      · exact htouched y hlt hD hy hsame
      rw [hs.events_eq, hs'.events_eq, bodyEvents, bodyEvents, h.onward_eq hlt hD,
        h.event?_eq hs.toLinked hlt hD]
      congr 1
      refine List.flatMap_congr fun c hc => ?_
      have hlink := hs.parent?_of_mem (mem_of_mem_onward hc)
      refine hsame c (within_of_parent hlink) ?_ fun hT => (hbelow c y hT hlink).elim hD hy
      rintro rfl
      exact hs.acyclic _ _ hlink .refl

end Store

end ScriptMin
