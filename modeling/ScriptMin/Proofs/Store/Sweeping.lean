import ScriptMin.Proofs.Pass.Following
import ScriptMin.Proofs.Store.Bodies

/-!
Going over a tree from the leaves to the root while it changes. The nodes are listed beforehand. An
edit of one of them that leaves what is outside of it where it is never touches those that come
later, so that every node of the list is still there when its turn comes.
-/

namespace ScriptMin

namespace Store

variable {s s' s'' : Store} {id x y z p : NodeId} {news rest : List NodeId}

theorem Forest.lt_of_reached (h : s.Forest) (hx : s.Within x s.root) : x < s.size := by
  rcases hx.cases with rfl | ⟨p, hp, -⟩
  · exact h.root_lt
  · exact parent?_lt hp

/-! ### Local edits -/

/-- What is outside of a node stays where it is in the tree. -/
structure Local (s s' : Store) (id : NodeId) : Prop where
  forest : s'.Forest
  root_eq : s'.root = s.root
  link : ∀ x p, s.Within x s.root → ¬ s.Within x id → s.parent? x = some p → s'.parent? x = some p

/-- Nodes that are put in the place of another one leave those outside where they are. -/
theorem Puts.local (h : Puts s s' id news) (hs : s.Forest) : Local s s' id where
  forest := h.forest
  root_eq := h.root_eq
  link x p _ hout hp := by
    have hmem := (hs.linked p x).mpr hp
    have hpout : ¬ s.Within p id := fun hback => hout ((within_of_parent hp).trans hback)
    refine h.forest.parent?_of_mem ?_
    by_cases hid : s.parent? id = some p
    · obtain ⟨before, behind, hsplit⟩ := List.append_of_mem ((hs.linked p id).mpr hid)
      rw [h.place p before behind hsplit]
      rw [hsplit] at hmem
      simp only [List.mem_append, List.mem_cons] at hmem ⊢
      rcases hmem with hmem | rfl | hmem
      · exact .inl (.inl hmem)
      · exact absurd .refl hout
      · exact .inr hmem
    · rwa [h.children_eq p (hs.parent_lt hp) hpout hid]

namespace Local

theorem refl (h : s.Forest) (id : NodeId) : Local s s id := ⟨h, rfl, fun _ _ _ _ hp => hp⟩

/-- Below a node there is less than below the nodes above it. -/
theorem outward (h : Local s s' x) (hx : s.Within x id) : Local s s' id :=
  ⟨h.forest, h.root_eq, fun y p hy hout hp => h.link y p hy (fun hyx => hout (hyx.trans hx)) hp⟩

/-- Lines from outside of the node to the root stay. -/
theorem parent?_eq (h : Local s s' id) (hs : s.Forest) (hx : s.Within x s.root)
    (hout : ¬ s.Within x id) : s'.parent? x = s.parent? x := by
  rcases hx.cases with rfl | ⟨p, hp, -⟩
  · rw [hs.root_parent, ← h.root_eq, h.forest.root_parent]
  · rw [hp]
    exact h.link x p hx hout hp

theorem within_iff (h : Local s s' id) (hs : s.Forest) (hx : s.Within x s.root)
    (hout : ¬ s.Within x id) : s'.Within x z ↔ s.Within x z := by
  refine within_congr fun y hy => h.parent?_eq hs ?_ fun hback => hout (hy.trans hback)
  rcases hx.total hy with hback | hup
  · -- Above the root there is nothing else.
    rcases hback.cases with rfl | ⟨q, hq, -⟩
    · exact .refl
    · rw [hs.root_parent] at hq
      cases hq
  · exact hup

theorem reached (h : Local s s' id) (hs : s.Forest) (hx : s.Within x s.root)
    (hout : ¬ s.Within x id) : s'.Within x s'.root := by
  rw [h.root_eq, h.within_iff hs hx hout]
  exact hx

/-- Two edits of a node, one after the other. -/
theorem trans (h : Local s s' id) (h' : Local s' s'' id) (hs : s.Forest) : Local s s'' id where
  forest := h'.forest
  root_eq := h'.root_eq.trans h.root_eq
  link x p hx hout hp := by
    refine h'.link x p (h.reached hs hx hout) ?_ (h.link x p hx hout hp)
    rwa [h.within_iff hs hx hout]

end Local

/-! ### Lists of nodes that are still to come -/

/-- The nodes of a list are below the root, none of them is below one before it, and what is above
them is in the list as well. -/
structure Pending (s : Store) (rest : List NodeId) : Prop where
  reached : ∀ y ∈ rest, s.Within y s.root
  apart : rest.Pairwise fun x y => ¬ s.Within y x
  upward : ∀ y ∈ rest, ∀ p, s.parent? y = some p → p ∈ rest

namespace Pending

theorem not_within (h : Pending s (id :: rest)) (hy : y ∈ rest) : ¬ s.Within y id :=
  (List.pairwise_cons.mp h.apart).1 y hy

/-- What is above a node is still to come. -/
theorem mem_of_within (h : Pending s rest) (hy : y ∈ rest) (hz : s.Within y z) : z ∈ rest := by
  induction hz with
  | refl => exact hy
  | tail _ hp ih => exact h.upward _ ih _ hp

/-- After a local edit of the first node the others are still to come. -/
theorem step (h : Pending s (id :: rest)) (hs : s.Forest) (hlocal : Local s s' id) :
    Pending s' rest where
  reached y hy := hlocal.reached hs (h.reached y (List.mem_cons_of_mem _ hy)) (h.not_within hy)
  apart := by
    refine (List.pairwise_cons.mp h.apart).2.imp_of_mem fun {x y} _ hy hout => ?_
    rwa [hlocal.within_iff hs (h.reached y (List.mem_cons_of_mem _ hy)) (h.not_within hy)]
  upward y hy p hp := by
    rw [hlocal.parent?_eq hs (h.reached y (List.mem_cons_of_mem _ hy)) (h.not_within hy)] at hp
    rcases List.mem_cons.mp (h.upward y (List.mem_cons_of_mem _ hy) p hp) with rfl | hmem
    · exact absurd (within_of_parent hp) (h.not_within hy)
    · exact hmem

end Pending

/-! ### The order of the leaves before the root -/

theorem within_of_mem_postorderFrom (hs : s.Linked) {depth : Nat}
    (hx : x ∈ s.postorderFrom depth id) : s.Within x id := by
  induction depth generalizing id with
  | zero => rw [List.mem_singleton.mp hx]; exact .refl
  | succ depth ih =>
      rw [postorderFrom, List.mem_append, List.mem_singleton, List.mem_flatMap] at hx
      rcases hx with ⟨c, hc, hx⟩ | rfl
      · exact (ih hx).trans (within_of_parent (hs.parent?_of_mem hc))
      · exact .refl

namespace Forest

variable (h : s.Forest)

include h

/-- A list of the leaves before the root that goes as far as lines go has all that is below. -/
theorem mem_postorderFrom {depth : Nat} (hdepth : s.size ≤ s.lineLength id + depth)
    (hx : s.Within x id) : x ∈ s.postorderFrom depth id := by
  induction depth generalizing id with
  | zero =>
      have hnone : s.children id = [] := h.children_eq_nil hdepth
      by_contra hne
      exact h.toLinked.not_within hnone (fun heq => hne (heq ▸ List.mem_singleton_self _)) hx
  | succ depth ih =>
      rw [postorderFrom, List.mem_append, List.mem_flatMap]
      induction hx using Relation.ReflTransGen.head_induction_on with
      | refl => exact .inr (List.mem_singleton_self _)
      | head hstep hbelow _ =>
          -- The way up from below ends at a child.
          obtain ⟨c, hc, hcid⟩ : ∃ c, s.Within _ c ∧ s.parent? c = some id := by
            have hlong := (within_of_parent hstep).trans hbelow
            rcases Relation.ReflTransGen.cases_tail hlong with heq | ⟨c, hc, hcid⟩
            · subst heq
              exact absurd hbelow (h.acyclic _ _ hstep)
            · exact ⟨c, hc, hcid⟩
          have hlt := h.lineLength_lt hcid
          exact .inl ⟨c, (h.linked id c).mpr hcid, ih (by omega) hc⟩

theorem pairwise_postorderFrom (depth : Nat) (id : NodeId) :
    (s.postorderFrom depth id).Pairwise fun x y => ¬ s.Within y x := by
  induction depth generalizing id with
  | zero => exact List.pairwise_singleton _ _
  | succ depth ih =>
      rw [postorderFrom, List.pairwise_append]
      refine ⟨List.pairwise_flatMap.mpr ⟨fun c _ => ih c, ?_⟩, List.pairwise_singleton _ _, ?_⟩
      · refine (h.nodup id).imp_of_mem fun {a b} ha hb hne x hx y hy hyx => ?_
        exact h.not_within_of_sibling (h.parent?_of_mem ha) (h.parent?_of_mem hb) hne
          (hyx.trans (within_of_mem_postorderFrom h.toLinked hx))
          (within_of_mem_postorderFrom h.toLinked hy)
      · intro x hx y hy hback
        obtain ⟨c, hc, hx⟩ := List.mem_flatMap.mp hx
        rw [List.mem_singleton.mp hy] at hback
        exact h.not_within_child hc
          (hback.trans (within_of_mem_postorderFrom h.toLinked hx))

theorem mem_postorder : x ∈ s.postorder id ↔ s.Within x id :=
  ⟨within_of_mem_postorderFrom h.toLinked, h.mem_postorderFrom (Nat.le_add_left _ _)⟩

/-- At first all nodes of the tree are still to come. -/
theorem pending_postorder : Pending s (s.postorder s.root) where
  reached y hy := h.mem_postorder.mp hy
  apart := h.pairwise_postorderFrom _ _
  upward y hy p hp := by
    refine h.mem_postorder.mpr ?_
    rcases (h.mem_postorder.mp hy).cases with rfl | ⟨q, hq, hroot⟩
    · rw [h.root_parent] at hp
      cases hp
    · rw [hp, Option.some_inj] at hq
      exact hq ▸ hroot

end Forest

end Store

/-! ### Sweeps -/

open Store

/-- A sweep whose edits say what they change says what it changes. -/
theorem Edit.gives_sweep_changed {α : Type} {edit : α → Edit Bool} {items : List α} {s : Store}
    {I : List α → Store → Prop} {R : Store → Bool → Store → Prop} (h : I items s)
    (hrefl : ∀ s, I [] s → R s false s)
    (htrans : ∀ s a s' b s'', R s a s' → R s' b s'' → R s (a || b) s'')
    (hedit : ∀ item rest s, I (item :: rest) s →
      Gives (edit item) s fun changed s' => I rest s' ∧ R s changed s') :
    Gives (sweep edit items) s fun changed s' => I [] s' ∧ R s changed s' := by
  induction items generalizing s with
  | nil => exact ⟨h, hrefl s h⟩
  | cons item rest ih =>
      rw [sweep, gives_bind]
      refine (hedit item rest s h).mono fun changed s' hs' => ?_
      rw [gives_bind]
      exact (ih hs'.1).mono fun more s'' hs'' => ⟨hs''.1, htrans _ _ _ _ _ hs'.2 hs''.2⟩

end ScriptMin
