import ScriptMin.Proofs.Pass.Questions
import ScriptMin.Proofs.Store.Lines

/-!
Trees that forests show. In a forest every node shows one tree, which is its view, so that views
are followed from a node to its children without counting how far they go.
-/

namespace ScriptMin.Store

variable {s s' : Store} {id c : NodeId} {t t' : Tree} {ids : List NodeId} {ts : List Tree}

/-- A view that goes further than lines can go shows all that is there. -/
theorem Forest.shows_viewFrom (h : s.Forest) {depth : Nat}
    (hdepth : s.size ≤ s.lineLength id + depth) : s.Shows id (s.viewFrom depth id) := by
  induction depth generalizing id with
  | zero =>
      have hnone : s.children id = [] := by
        refine List.eq_nil_iff_forall_not_mem.mpr fun c hc => ?_
        have hlt := h.lineLength_lt (h.parent?_of_mem hc)
        have hle : s.lineLength c ≤ s.size := lineLength_le_size
        omega
      rw [viewFrom, Shows, hnone]
      exact ⟨rfl, trivial⟩
  | succ depth ih =>
      rw [viewFrom, Shows]
      refine ⟨rfl, showsList_iff.mpr (List.forall₂_map_right_iff.mpr ?_)⟩
      refine List.forall₂_same.mpr fun c hc => ih ?_
      have hlt := h.lineLength_lt (h.parent?_of_mem hc)
      omega

theorem Forest.shows_view (h : s.Forest) (id : NodeId) : s.Shows id (s.view id) :=
  h.shows_viewFrom (Nat.le_add_left _ _)

theorem Shows.unique (h : s.Shows id t) (h' : s.Shows id t') : t = t' := by
  have ht := h.viewFrom_eq (Nat.le_succ_of_le (Nat.le_max_left t.depth t'.depth))
  have ht' := h'.viewFrom_eq (Nat.le_succ_of_le (Nat.le_max_right t.depth t'.depth))
  exact ht.symm.trans ht'

theorem Forest.view_eq (h : s.Forest) (hshows : s.Shows id t) : s.view id = t :=
  (h.shows_view id).unique hshows

theorem Forest.map_view_eq (h : s.Forest) (hshows : s.ShowsList ids ts) : ids.map s.view = ts := by
  rw [← List.forall₂_eq_eq_eq, List.forall₂_map_left_iff]
  exact (showsList_iff.mp hshows).imp fun _ _ => h.view_eq

/-- The view of a node has the views of the children below its head. -/
theorem Forest.view_eq_node (h : s.Forest) (id : NodeId) :
    s.view id = .node (s.head id) ((s.children id).map s.view) := by
  refine h.view_eq ?_
  rw [Shows]
  refine ⟨rfl, showsList_iff.mpr (List.forall₂_map_right_iff.mpr ?_)⟩
  exact List.forall₂_same.mpr fun c _ => h.shows_view c

/-! ### Parts of views -/

theorem head_view (id : NodeId) : (s.view id).head = s.head id := by
  rw [view]
  cases s.size <;> rfl

theorem kind_view (id : NodeId) : (s.view id).kind = s.kind id := congrArg Head.kind (head_view id)

theorem Forest.children_view (h : s.Forest) (id : NodeId) :
    (s.view id).children = (s.children id).map s.view := by
  rw [h.view_eq_node]
  rfl

theorem Forest.child?_view (h : s.Forest) (id : NodeId) (role : Role) :
    (s.view id).child? role = (s.child? id role).map s.view := by
  rw [Tree.child?, h.children_view, List.find?_map, child?]
  congr 2
  ext c
  rw [Function.comp_apply, head_view]
  rfl

theorem Forest.nth?_view (h : s.Forest) (id : NodeId) (i : Nat) :
    (s.view id).nth? i = (s.nth? id i).map s.view := by
  rw [Tree.nth?, h.children_view, List.getElem?_map]
  rfl

/-! ### Views of other stores -/

theorem viewFrom_congr (hs : s.Linked) (hhead : ∀ x, s.Within x id → s'.head x = s.head x)
    (hchildren : ∀ x, s.Within x id → s'.children x = s.children x) (depth : Nat) :
    s'.viewFrom depth id = s.viewFrom depth id := by
  induction depth generalizing id with
  | zero => rw [viewFrom, viewFrom, hhead id .refl]
  | succ depth ih =>
      rw [viewFrom, viewFrom, hhead id .refl, hchildren id .refl]
      congr 1
      refine List.map_congr_left fun c hc => ?_
      have hbelow := within_of_parent (hs.parent?_of_mem hc)
      exact ih (fun x hx => hhead x (hx.trans hbelow)) fun x hx => hchildren x (hx.trans hbelow)

/-- A node shows what it showed if the heads and the children at it and below it are the same. -/
theorem Shows.congr (h : s.Shows id t) (hs : s.Linked) (hs' : s'.Forest)
    (hhead : ∀ x, s.Within x id → s'.head x = s.head x)
    (hchildren : ∀ x, s.Within x id → s'.children x = s.children x) : s'.Shows id t := by
  have hview := h.viewFrom_eq (Nat.le_succ_of_le (Nat.le_max_left t.depth s'.size))
  rw [← hview, ← viewFrom_congr hs hhead hchildren]
  exact hs'.shows_viewFrom ((Nat.le_max_right _ _).trans (Nat.le_add_left _ _))

/-- A node shows what it showed if only nodes off it have changed. -/
theorem Forest.shows_of_off (h : s.Forest) (h' : s'.Forest) {T : NodeId → Prop}
    (hhead : ∀ x, ¬ T x → s'.head x = s.head x)
    (hchildren : ∀ x, ¬ T x → s'.children x = s.children x) (hoff : ∀ x, T x → ¬ s.Within x id)
    (hshows : s.Shows id t) : s'.Shows id t :=
  hshows.congr h.toLinked h' (fun x hx => hhead x fun hT => hoff x hT hx)
    fun x hx => hchildren x fun hT => hoff x hT hx

theorem Forest.showsList_of_off (h : s.Forest) (h' : s'.Forest) {T : NodeId → Prop}
    (hhead : ∀ x, ¬ T x → s'.head x = s.head x)
    (hchildren : ∀ x, ¬ T x → s'.children x = s.children x)
    (hoff : ∀ id ∈ ids, ∀ x, T x → ¬ s.Within x id) (hshows : s.ShowsList ids ts) :
    s'.ShowsList ids ts := by
  rw [showsList_iff] at hshows ⊢
  refine ((List.forall₂_and_left _ _).mpr ⟨hoff, hshows⟩).imp fun id t hid => ?_
  exact h.shows_of_off h' hhead hchildren hid.1 hid.2

end ScriptMin.Store
