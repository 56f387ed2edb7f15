import ScriptMin.Pass.Basic
import ScriptMin.Proofs.Pass.Following

/-!
Edits that are confined to what is below some nodes. Nothing changes but the nodes there and
their parents, and nodes that are new. An edit below one of several siblings therefore leaves what
is at the others and below as it was, so that a sweep over siblings finds each of them untouched.
-/

namespace ScriptMin

namespace Store

variable {s s' s'' : Store} {id parent child old new x y a b : NodeId} {ids ids' : List NodeId}

/-! ### Nodes that an edit leaves -/

theorem node_detach (hx : x ≠ id) (hparent : s.parent? id ≠ some x) :
    (s.detach id).node x = s.node x := by
  rw [detach_eq]
  split
  · rfl
  case h_2 p hp =>
      have hxp : x ≠ p := by
        rintro rfl
        exact hparent hp
      rw [mapChildren, node_modifyNode, if_neg fun h => hxp h.1, setParent, node_modifyNode,
        if_neg fun h => hx h.1]

theorem node_setRole (hx : x ≠ id) (role : Option Role) : (s.setRole id role).node x = s.node x := by
  rw [setRole, modifyHead, node_modifyNode, if_neg fun h => hx h.1]

theorem node_remove (hx : x ≠ id) (hparent : s.parent? id ≠ some x) :
    (s.remove id).node x = s.node x := by
  rw [remove, node_setRole hx, node_detach hx hparent]

theorem node_swap (hold : x ≠ old) (hnew : x ≠ new) (hparent : x ≠ parent) :
    (s.swap parent old new).node x = s.node x := by
  rw [swap, setParent, node_modifyNode, if_neg fun h => hnew h.1, mapChildren, node_modifyNode,
    if_neg fun h => hparent h.1, setParent, node_modifyNode, if_neg fun h => hold h.1]

/-- Putting a detached node in the place of another one changes these two and the parent. -/
theorem node_replace (hdetached : s.parent? new = none) (hold : x ≠ old) (hnew : x ≠ new)
    (hparent : s.parent? old ≠ some x) : (s.replace old new).node x = s.node x := by
  by_cases hne : old = new
  · rw [replace, if_pos hne]
  · rw [replace_eq hne]
    have hrole : ((s.detach new).setRole new (s.role? old)).node x = s.node x := by
      rw [node_setRole hnew, node_detach hnew (by rw [hdetached]; exact (Option.some_ne_none x).symm)]
    have hlink : ((s.detach new).setRole new (s.role? old)).parent? old = s.parent? old := by
      rw [parent?_setRole, parent?_detach, if_neg hne]
    dsimp only
    split
    case h_1 p hp =>
        rw [hlink] at hp
        have hxp : x ≠ p := by
          rintro rfl
          exact hparent hp
        rw [node_swap hold hnew hxp, hrole]
    case h_2 =>
        split
        · exact hrole
        · exact hrole

/-! ### What stays at a node and below -/

/-- The nodes at a node and below are as they were. -/
def Kept (s s' : Store) (id : NodeId) : Prop := ∀ x, s.Within x id → s'.node x = s.node x

namespace Kept

theorem children_eq (h : Kept s s' id) (hx : s.Within x id) : s'.children x = s.children x := by
  rw [children, h x hx]
  rfl

theorem parent?_eq (h : Kept s s' id) (hx : s.Within x id) : s'.parent? x = s.parent? x := by
  rw [parent?, h x hx]
  rfl

/-- A node that is kept shows what it showed. -/
theorem shows (h : Kept s s' id) (hs : s.Linked) {t : Tree} (ht : s.Shows id t) : s'.Shows id t :=
  Shows.mono (M := (s.Within · id)) h
    (fun _ _ hp hc => (within_of_parent (hs.parent?_of_mem hc)).trans hp) t id .refl ht

/-- What is below a node that is kept was below it. -/
theorem within (h : Kept s s' id) (hs : s.Linked) (hs' : s'.Linked) (hx : s'.Within x id) :
    s.Within x id := by
  -- The line is followed down from the node, where the children are as they were.
  induction hx using Relation.ReflTransGen.head_induction_on with
  | refl => exact .refl
  | head hstep _ ih =>
      have hmem := (hs'.linked _ _).mpr hstep
      rw [h.children_eq ih] at hmem
      exact (within_of_parent (hs.parent?_of_mem hmem)).trans ih

end Kept

/-! ### Confined edits -/

/-- A forest has come from an earlier one by edits below some nodes. -/
structure Confined (s s' : Store) (ids : List NodeId) : Prop where
  forest : s'.Forest
  size_le : s.size ≤ s'.size
  node_eq : ∀ x < s.size, (∀ id ∈ ids, ¬ s.Within x id ∧ s.parent? id ≠ some x) →
    s'.node x = s.node x

namespace Confined

theorem refl (h : s.Forest) (ids : List NodeId) : Confined s s ids :=
  ⟨h, Nat.le_refl _, fun _ _ _ => rfl⟩

theorem mono (h : Confined s s' ids) (hids : ids ⊆ ids') : Confined s s' ids' :=
  ⟨h.forest, h.size_le, fun x hx hoff => h.node_eq x hx fun id hid => hoff id (hids hid)⟩

/-- An edit below a node keeps the siblings of that node. -/
theorem kept_sibling (h : Confined s s' [a]) (hs : s.Forest) (ha : s.parent? a = some parent)
    (hb : s.parent? b = some parent) (hne : a ≠ b) : Kept s s' b := by
  intro x hx
  have hlt : x < s.size := by
    rcases hx.cases with rfl | ⟨p, hp, -⟩
    · exact parent?_lt hb
    · exact parent?_lt hp
  refine h.node_eq x hlt fun id hid => ?_
  rw [List.mem_singleton] at hid
  subst hid
  constructor
  · intro hxa
    rcases hxa.total hx with hab | hba
    · exact hs.not_within_sibling ha hb hne hab
    · exact hs.not_within_sibling hb ha hne.symm hba
  · intro hpx
    rw [ha, Option.some_inj] at hpx
    exact hs.acyclic b parent hb (hpx ▸ hx)

/-- The siblings behind a node are siblings after an edit below it. -/
theorem siblings (h : Confined s s' [a]) (hs : s.Forest) (hids : Siblings s parent (a :: ids)) :
    Siblings s' parent ids := by
  have ha := hids.parent a List.mem_cons_self
  refine ⟨(List.nodup_cons.mp hids.nodup).2, fun c hc => ?_⟩
  have hc' := hids.parent c (List.mem_cons_of_mem _ hc)
  have hne : a ≠ c := by
    rintro rfl
    exact (List.nodup_cons.mp hids.nodup).1 hc
  rw [(h.kept_sibling hs ha hc' hne).parent?_eq .refl, hc']

/-- Edits below siblings, one after the other. -/
theorem cons (h : Confined s s' [a]) (h' : Confined s' s'' ids) (hs : s.Forest)
    (hids : Siblings s parent (a :: ids)) : Confined s s'' (a :: ids) := by
  refine ⟨h'.forest, h.size_le.trans h'.size_le, fun x hx hoff => ?_⟩
  rw [List.forall_mem_cons] at hoff
  have hfirst : s'.node x = s.node x := h.node_eq x hx (by simpa using hoff.1)
  rw [h'.node_eq x (hx.trans_le h.size_le) fun c hc => ?_, hfirst]
  have ha := hids.parent a List.mem_cons_self
  have hc' := hids.parent c (List.mem_cons_of_mem _ hc)
  have hne : a ≠ c := by
    rintro rfl
    exact (List.nodup_cons.mp hids.nodup).1 hc
  have hkept := h.kept_sibling hs ha hc' hne
  refine ⟨fun hxc => (hoff.2 c hc).1 (hkept.within hs.toLinked h.forest.toLinked hxc), ?_⟩
  rw [hkept.parent?_eq .refl]
  exact (hoff.2 c hc).2

/-- Edits below the children of a node are edits below the node. -/
theorem of_children (h : Confined s s' (s.children id)) (hs : s.Linked) : Confined s s' [id] := by
  refine ⟨h.forest, h.size_le, fun x hx hoff => h.node_eq x hx fun c hc => ?_⟩
  have hparent := hs.parent?_of_mem hc
  have hid := (hoff id (List.mem_singleton_self id)).1
  refine ⟨fun hxc => hid (hxc.trans (within_of_parent hparent)), ?_⟩
  rw [hparent]
  rintro ⟨⟩
  exact hid .refl

end Confined

end Store

/-! ### Sweeps -/

open Store

/-- The fault that a pass ends with, if it ends early. -/
def Pass.fault? {α : Type} (m : Pass α) (s : Store) : Option PassFault :=
  match (m.run.run s).1 with
  | .error fault => some fault
  | .ok _ => none

/-- A pass goes on with its result unless it ends early. -/
theorem Pass.run_bind {α β : Type} (m : Pass α) (f : α → Pass β) (s : Store) :
    (m >>= f).run.run s =
      match m.run.run s with
      | (.error fault, s') => (.error fault, s')
      | (.ok a, s') => (f a).run.run s' := by
  rw [ExceptT.run_bind, StateT.run_bind]
  rcases hrun : m.run.run s with ⟨fault | a, s'⟩
  · rfl
  · rfl

theorem Pass.run_get_bind {β : Type} (f : Store → Pass β) (s : Store) :
    (get >>= f).run.run s = (f s).run.run s := rfl

/-- A sweep goes on behind an item unless the edit of the item ends it. -/
theorem run_sweep_cons {α : Type} (edit : α → Pass Bool) (item : α) (rest : List α) (s : Store) :
    (sweep edit (item :: rest)).run.run s =
      match (edit item).run.run s with
      | (.error fault, s') => (.error fault, s')
      | (.ok changed, s') =>
        match (sweep edit rest).run.run s' with
        | (.error fault, s'') => (.error fault, s'')
        | (.ok more, s'') => (.ok (changed || more), s'') := by
  rw [sweep, Pass.run_bind]
  rcases (edit item).run.run s with ⟨fault | changed, s'⟩
  · rfl
  · dsimp only
    rw [Pass.run_bind]
    rcases (sweep edit rest).run.run s' with ⟨fault | more, s''⟩
    · rfl
    · rfl

/-- A sweep over siblings is confined to them if every edit is confined to its own. -/
theorem confined_sweep {s : Store} {edit : NodeId → Pass Bool} {parent : NodeId}
    {ids : List NodeId} (hedit : ∀ c s, s.Forest → Confined s ((edit c).run.run s).2 [c])
    (h : s.Forest) (hids : Siblings s parent ids) :
    Confined s ((sweep edit ids).run.run s).2 ids := by
  induction ids generalizing s with
  | nil => exact .refl h []
  | cons c rest ih =>
      have hfirst := hedit c s h
      rw [run_sweep_cons]
      rcases hrun : (edit c).run.run s with ⟨fault | changed, s'⟩
      all_goals
        rw [hrun] at hfirst
        dsimp only at hfirst ⊢
      · exact hfirst.mono (by simp)
      · have hrest := hfirst.cons (ih hfirst.forest (hfirst.siblings h hids)) h hids
        rcases hmore : (sweep edit rest).run.run s' with ⟨fault | more, s''⟩
        all_goals
          rw [hmore] at hrest
          exact hrest

end ScriptMin
