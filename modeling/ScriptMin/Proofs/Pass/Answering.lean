import ScriptMin.Proofs.Pass.Forests
import ScriptMin.Proofs.Pass.Questions

/-!
Answering the questions of a tree. Substitution goes through a store that it changes on the way,
but what it has not come to yet is as the tree has it. Main statements: substitution does the same
for settings that agree on the names that the tree asks about, and it ends with a fault exactly if
the text of a value that it puts into the tree is rejected.
-/

namespace ScriptMin

namespace Substitution

open Store

variable {write : Data.Writer} {s s' : Store} {p q : Permutation} {id call new : NodeId} {t : Tree}

/-! ### Replacing a question -/

/-- A node has been found or made that is to replace a call. Nothing has changed but at the call
and below. -/
structure Offered (s : Store) (call new : NodeId) (s' : Store) : Prop where
  forest : s'.Forest
  size_le : s.size ≤ s'.size
  movable : Movable {call} s' new
  detached : s'.parent? new = none
  parent_eq : s'.parent? call = s.parent? call
  node_eq : ∀ x < s.size, ¬ s.Within x call → s'.node x = s.node x
  origin : s.size ≤ new ∨ s.Within new call

/-- What can become of a call: nothing, a fault, or a node that is to replace it. -/
inductive Outcome (s : Store) (call : NodeId) : Except PassFault (Option NodeId) × Store → Prop
  | silent : Outcome s call (.ok none, s)
  | rejected (fault : Fault) : Outcome s call (.error (.text fault), s)
  | offered {new : NodeId} {s' : Store} (h : Offered s call new s') :
      Outcome s call (.ok (some new), s')

/-- What is put in the place of a call changes nothing outside. -/
theorem Offered.confined (h : Offered s call new s') : Confined s (s'.replace call new) [call] := by
  refine ⟨?_, ?_, fun x hx hoff => ?_⟩
  · exact h.forest.replace h.movable.lt h.movable.ne_root (h.movable.off call rfl)
  · rw [size_replace]
    exact h.size_le
  · obtain ⟨hwithin, hparent⟩ := hoff call (List.mem_singleton_self call)
    have hcall : x ≠ call := by
      rintro rfl
      exact hwithin .refl
    have hnew : x ≠ new := by
      rintro rfl
      rcases h.origin with hle | hbelow
      · exact absurd hx (Nat.not_lt.mpr hle)
      · exact hwithin hbelow
    rw [node_replace h.detached hcall hnew (by rwa [h.parent_eq]), h.node_eq x hx hwithin]

/-- A new node can replace a call. -/
theorem offered_of_built (h : s.Forest) (hcall : call < s.size) (hs : Built {call} s s' new)
    (hnode : ∀ x < s.size, s'.node x = s.node x) : Offered s call new s' where
  forest := hs.forest
  size_le := hs.size_le
  movable := hs.movable h.toLinked (singleton_lt hcall)
  detached := hs.parent_new
  parent_eq := hs.parent?_eq rfl
  node_eq x hx _ := hnode x hx
  origin := .inl hs.size_le_new

/-- A node from below a call can replace it when it has been taken out. -/
theorem offered_remove {parent : NodeId} (h : s.Forest) (hparent : s.parent? new = some parent)
    (hbelow : s.Within parent call) : Offered s call new (s.remove new) := by
  have hwithin : s.Within new call := (within_of_parent hparent).trans hbelow
  have hmovable : Movable {call} s new := by
    refine ⟨h.toLinked.loose_of_mem ((h.linked parent new).mpr hparent), ?_⟩
    rintro x rfl hx
    exact h.acyclic new parent hparent (hbelow.trans hx)
  have hsteady := steady_remove h hmovable.off
  refine ⟨hsteady.forest, hsteady.size_le, hmovable.of_steady hsteady, ?_, hsteady.parent?_eq rfl,
    fun x hx hoff => ?_, .inr hwithin⟩
  · rw [remove, parent?_setRole, parent?_detach, if_pos rfl]
  · apply node_remove
    · rintro rfl
      exact hoff hwithin
    · rw [hparent]
      rintro ⟨⟩
      exact hoff hbelow

theorem exists_property_of_branch? {map branch : NodeId} {wanted : String}
    (h : branch? (branches s map) wanted = some branch) :
    ∃ property ∈ s.children map, branch ∈ s.children property := by
  obtain ⟨name, hmem⟩ := mem_of_branch? h
  obtain ⟨property, hproperty, hsome⟩ := List.mem_filterMap.mp hmem
  simp only [Option.bind_eq_bind, Option.bind_eq_some_iff] at hsome
  obtain ⟨_, -, key, -, value, hvalue, heq⟩ := hsome
  obtain ⟨-, rfl⟩ := Prod.mk.inj (Option.some_inj.mp heq)
  exact ⟨property, hproperty, mem_of_nth? hvalue⟩

theorem outcome_answer {args : List NodeId} (h : s.Forest) (hcall : call < s.size)
    (hargs : ∀ arg ∈ args, s.Within arg call) (query : Query) (value : Data) :
    Outcome s call ((answer write call query args value).run.run s) := by
  cases query with
  | value =>
      rw [run_answer_value]
      cases parseExpression (write value) 1 with
      | error fault => exact .rejected fault
      | ok tree =>
          obtain ⟨-, hgrown, -⟩ := graft_spec s tree
          exact .offered (offered_of_built h hcall (h.built_graft (singleton_lt hcall) rfl)
            hgrown.node_eq)
  | isSet =>
      rw [run_answer_isSet]
      cases expected? s args with
      | none => exact .silent
      | some expected =>
          refine .offered (offered_of_built h hcall (h.built_add rfl).1 fun x hx => ?_)
          rw [node_add, if_neg (Nat.ne_of_lt hx)]
  | select =>
      rw [run_answer_select]
      cases hmap : args[1]?.filter (fun map => s.kind map == .objectInit) with
      | none => exact .silent
      | some map =>
          dsimp only
          cases hbranch : branch? (branches s map) (branchName write value) with
          | none => exact .silent
          | some branch =>
              obtain ⟨property, hproperty, hmem⟩ := exists_property_of_branch? hbranch
              have hmap' := hargs map (List.mem_of_getElem? (Option.filter_eq_some_iff.mp hmap).1)
              refine .offered (offered_remove h (h.parent?_of_mem hmem) ?_)
              exact (within_of_parent (h.parent?_of_mem hproperty)).trans hmap'

theorem within_of_mem_argIds (h : s.Forest) {arg : NodeId} (harg : arg ∈ argIds s call) :
    s.Within arg call := by
  rw [argIds] at harg
  cases hlist : s.nth? call 1 with
  | none =>
      rw [hlist] at harg
      cases harg
  | some list =>
      rw [hlist] at harg
      exact (within_of_parent (h.parent?_of_mem harg)).trans
        (within_of_parent (h.parent?_of_mem (mem_of_nth? hlist)))

theorem outcome_replacement? (h : s.Forest) (write : Data.Writer) (p : Permutation)
    (call : NodeId) :
    Outcome s call ((replacement? write p call).run.run s) := by
  rw [replacement?, Pass.run_get_bind]
  split
  · exact .silent
  case h_2 query args value hquery =>
      simp only [query?, Option.bind_eq_bind, Option.bind_eq_some_iff] at hquery
      obtain ⟨_, -, callee, hcallee, _, -, _, -, _, -, _, -, _, -, heq⟩ := hquery
      obtain rfl : argIds s call = args := congrArg (·.2.1) (Option.some_inj.mp heq)
      exact outcome_answer h (lt_of_mem_children (mem_of_nth? hcallee))
        (fun arg harg => within_of_mem_argIds h harg) query value

/-! ### Visiting -/

theorem run_visit (depth : Nat) (id : NodeId) (s : Store) :
    (visit write p (depth + 1) id).run.run s =
      match (replacement? write p id).run.run s with
      | (.error fault, s') => (.error fault, s')
      | (.ok (some new), s') => (.ok true, s'.replace id new)
      | (.ok none, s') => (sweep (visit write p depth) (s'.children id)).run.run s' := by
  rw [visit, Pass.run_bind]
  rcases (replacement? write p id).run.run s with ⟨fault | result, s'⟩
  · rfl
  · cases result with
    | none => rfl
    | some new => rfl

/-- Answering the questions at a node and below changes nothing outside. -/
theorem confined_visit (h : s.Forest) (depth : Nat) (id : NodeId) :
    Confined s ((visit write p depth id).run.run s).2 [id] := by
  induction depth generalizing s id with
  | zero => exact .refl h [id]
  | succ depth ih =>
      rw [run_visit]
      rcases hrun : (replacement? write p id).run.run s with ⟨result, s'⟩
      have houtcome := outcome_replacement? h write p id
      rw [hrun] at houtcome
      cases houtcome with
      | silent =>
          refine Confined.of_children ?_ h.toLinked
          exact confined_sweep (fun c s hs => ih hs c) h (siblings_children h id)
      | rejected fault => exact .refl h [id]
      | offered hoffered => exact hoffered.confined

/-- Siblings of a forest show trees, and the store is large enough to view them. -/
structure Row (s : Store) (parent : NodeId) (ids : List NodeId) (ts : List Tree) : Prop where
  forest : s.Forest
  siblings : Siblings s parent ids
  shows : s.ShowsList ids ts
  depth_le : ∀ t ∈ ts, t.depth ≤ s.size

theorem row_children (h : s.Forest) (hshows : s.Shows id t) (hdepth : t.depth ≤ s.size) :
    Row s id (s.children id) t.children := by
  obtain ⟨head, children⟩ := t
  refine ⟨h, siblings_children h id, hshows.children, fun c hc => ?_⟩
  have hchild : c.depth ≤ (Tree.node head children).depth := Tree.depth_le_of_mem hc
  exact hchild.trans hdepth

/-- The siblings behind a node show the same trees after an edit below it. -/
theorem Row.next {parent : NodeId} {ids : List NodeId} {ts : List Tree}
    (h : Row s parent (id :: ids) (t :: ts)) (hconfined : Confined s s' [id]) :
    Row s' parent ids ts := by
  have hid := h.siblings.parent id List.mem_cons_self
  have hshows := h.shows
  rw [ShowsList] at hshows
  refine ⟨hconfined.forest, hconfined.siblings h.forest h.siblings, ?_, fun c hc => ?_⟩
  · refine ShowsList.mono (M := fun x => ∃ c ∈ ids, s.Within x c) ?_ ?_ ts ids
      (fun c hc => ⟨c, hc, .refl⟩) hshows.2
    · rintro x ⟨c, hc, hx⟩
      have hparent := h.siblings.parent c (List.mem_cons_of_mem _ hc)
      have hne : id ≠ c := by
        rintro rfl
        exact (List.nodup_cons.mp h.siblings.nodup).1 hc
      exact hconfined.kept_sibling h.forest hid hparent hne x hx
    · rintro x y ⟨c, hc, hx⟩ hy
      exact ⟨c, hc, (within_of_parent (h.forest.parent?_of_mem hy)).trans hx⟩
  · exact (h.depth_le c (List.mem_cons_of_mem _ hc)).trans hconfined.size_le

/-! ### Settings that a tree asks about -/

theorem name_mem_asked {question : Question} (h : question? t = some question) :
    question.name ∈ asked t := by
  obtain ⟨head, children⟩ := t
  rw [asked, h]
  exact List.mem_append_left _ List.mem_cons_self

theorem askedList_subset_asked : askedList t.children ⊆ asked t := by
  obtain ⟨head, children⟩ := t
  rw [asked]
  exact List.subset_append_right _ _

theorem asked_subset_askedList {ts : List Tree} (h : t ∈ ts) : asked t ⊆ askedList ts := by
  induction ts with
  | nil => cases h
  | cons first rest ih =>
      rw [askedList]
      rcases List.mem_cons.mp h with rfl | h
      · exact List.subset_append_left _ _
      · exact List.subset_append_of_subset_right _ (ih h)

theorem run_replacement?_congr (h : s.Shows call t) (hdepth : t.depth ≤ s.size)
    (hagree : ∀ name ∈ asked t, q.get? name = p.get? name) :
    (replacement? write q call).run.run s = (replacement? write p call).run.run s := by
  have hquery : query? q s call = query? p s call := by
    rw [query?_eq h hdepth, query?_eq h hdepth]
    cases hquestion : question? t with
    | none => rfl
    | some question =>
        rw [Option.bind_some, Option.bind_some, hagree _ (name_mem_asked hquestion)]
  rw [replacement?, replacement?, Pass.run_get_bind, Pass.run_get_bind, hquery]

theorem run_sweep_congr {edit edit' : NodeId → Pass Bool} {parent : NodeId} {ids : List NodeId}
    {ts : List Tree} (hconfined : ∀ c s, s.Forest → Confined s ((edit c).run.run s).2 [c])
    (hedit : ∀ c s t, s.Forest → s.Shows c t → t.depth ≤ s.size → t ∈ ts →
      (edit' c).run.run s = (edit c).run.run s)
    (hrow : Row s parent ids ts) :
    (sweep edit' ids).run.run s = (sweep edit ids).run.run s := by
  induction ids generalizing s ts with
  | nil => rfl
  | cons c ids ih =>
      cases ts with
      | nil => exact (not_showsList_nil hrow.shows).elim
      | cons t ts =>
          have hshows := hrow.shows
          rw [ShowsList] at hshows
          rw [run_sweep_cons, run_sweep_cons, hedit c s t hrow.forest hshows.1
            (hrow.depth_le t List.mem_cons_self) List.mem_cons_self]
          have hfirst := hconfined c s hrow.forest
          rcases hrun : (edit c).run.run s with ⟨fault | changed, s'⟩
          · rfl
          · rw [hrun] at hfirst
            dsimp only
            rw [ih (fun c s t hs ht hle hmem => hedit c s t hs ht hle (List.mem_cons_of_mem _ hmem))
              (hrow.next hfirst)]

/-- Visiting a node does the same for settings that agree on the names that the tree there asks
about. -/
theorem run_visit_congr (h : s.Forest) (hshows : s.Shows id t) (hdepth : t.depth ≤ s.size)
    (hagree : ∀ name ∈ asked t, q.get? name = p.get? name) (depth : Nat) :
    (visit write q depth id).run.run s = (visit write p depth id).run.run s := by
  induction depth generalizing s id t with
  | zero => rfl
  | succ depth ih =>
      rw [run_visit, run_visit, run_replacement?_congr hshows hdepth hagree]
      rcases hrun : (replacement? write p id).run.run s with ⟨result, s'⟩
      have houtcome := outcome_replacement? h write p id
      rw [hrun] at houtcome
      cases houtcome with
      | silent =>
          refine run_sweep_congr (fun c s hs => confined_visit hs depth c) ?_
            (row_children h hshows hdepth)
          intro c s tree hs htree hle hmem
          refine ih hs htree hle fun name hname => hagree name (askedList_subset_asked ?_)
          exact asked_subset_askedList hmem hname
      | rejected fault => rfl
      | offered hoffered => rfl

/-! ### Answers that are rejected -/

theorem fault?_sweep {edit : NodeId → Pass Bool} {parent : NodeId} {ids : List NodeId}
    {ts : List Tree} (hconfined : ∀ c s, s.Forest → Confined s ((edit c).run.run s).2 [c])
    (hedit : ∀ c s t, s.Forest → s.Shows c t → t.depth ≤ s.size → t ∈ ts →
      (edit c).fault? s = (rejected? write p t).map .text)
    (hrow : Row s parent ids ts) :
    (sweep edit ids).fault? s =
      ((answeredListBy write p ts).findSome? (textFault? write)).map .text := by
  induction ids generalizing s ts with
  | nil =>
      obtain rfl := List.forall₂_nil_left_iff.mp (showsList_iff.mp hrow.shows)
      rfl
  | cons c ids ih =>
      cases ts with
      | nil => exact (not_showsList_nil hrow.shows).elim
      | cons t ts =>
          have hshows := hrow.shows
          rw [ShowsList] at hshows
          have hfirst := hedit c s t hrow.forest hshows.1 (hrow.depth_le t List.mem_cons_self)
            List.mem_cons_self
          have hnext := hconfined c s hrow.forest
          rw [answeredListBy, List.findSome?_append]
          change _ = ((rejected? write p t).or _).map _
          rw [Pass.fault?] at hfirst
          rw [Pass.fault?, run_sweep_cons]
          rcases hrun : (edit c).run.run s with ⟨fault | changed, s'⟩
          all_goals rw [hrun] at hfirst hnext
          · obtain ⟨fault', hrejected, rfl⟩ := Option.map_eq_some_iff.mp hfirst.symm
            rw [hrejected]
            rfl
          · have hrest := ih
              (fun c s t hs ht hle hmem => hedit c s t hs ht hle (List.mem_cons_of_mem _ hmem))
              (hrow.next hnext)
            rw [Option.map_eq_none_iff.mp hfirst.symm, Option.none_or, ← hrest, Pass.fault?]
            dsimp only
            rcases (sweep edit ids).run.run s' with ⟨fault | more, s''⟩
            · rfl
            · rfl

/-- Visiting a node ends with a fault exactly if an answer to a question there is rejected. -/
theorem fault?_visit (h : s.Forest) (hshows : s.Shows id t) (hsize : t.depth ≤ s.size)
    (p : Permutation) {depth : Nat} (hdepth : t.depth ≤ depth) :
    (visit write p depth id).fault? s = (rejected? write p t).map .text := by
  induction depth generalizing s id t with
  | zero => exact absurd t.depth_pos (Nat.not_lt.mpr hdepth)
  | succ depth ih =>
      have hreply := map_run_replacement? hshows hsize write p
      have houtcome := outcome_replacement? h write p id
      rw [reply] at hreply
      obtain ⟨head, children⟩ := t
      rw [rejected?, answeredBy, Pass.fault?, run_visit]
      rcases hrun : (replacement? write p id).run.run s with ⟨result, s'⟩
      rw [hrun] at hreply houtcome
      cases hanswer : answer? write p (.node head children) with
      | none =>
          rw [hanswer] at hreply
          cases houtcome with
          | silent =>
              refine fault?_sweep (fun c s hs => confined_visit hs depth c) ?_
                (row_children h hshows hsize)
              intro c s tree hs htree hle hmem
              rw [Tree.depth] at hdepth
              exact ih hs htree hle ((Tree.depth_le_depthList hmem).trans (by omega))
          | rejected fault => cases hreply
          | offered hoffered => cases hreply
      | some found =>
          rw [hanswer] at hreply
          dsimp only at hreply
          rw [List.findSome?_singleton]
          cases hfault : textFault? write found with
          | none =>
              rw [hfault] at hreply
              cases houtcome with
              | silent => cases hreply
              | rejected fault => cases hreply
              | offered hoffered => rfl
          | some fault =>
              rw [hfault] at hreply
              cases houtcome with
              | silent => cases hreply
              | rejected fault =>
                  cases hreply
                  rfl
              | offered hoffered => cases hreply

/-- Without settings nothing is answered. -/
theorem run_visit_of_isEmpty (h : p.isEmpty) (depth : Nat) (id : NodeId) (s : Store) :
    (visit write p depth id).run.run s = (.ok false, s) := by
  have hget : ∀ name, p.get? name = none := by
    intro name
    rw [Permutation.get?, List.isEmpty_iff.mp h]
    rfl
  have hreplacement : ∀ id, (replacement? write p id).run.run s = (.ok none, s) := by
    intro id
    have hquery : query? p s id = none := by
      simp [query?, hget]
    rw [replacement?, Pass.run_get_bind, hquery]
    rfl
  induction depth generalizing id with
  | zero => rfl
  | succ depth ih =>
      rw [run_visit, hreplacement]
      dsimp only
      induction s.children id with
      | nil => rfl
      | cons c rest ihc =>
          rw [run_sweep_cons, ih c]
          dsimp only
          rw [ihc]
          rfl

end Substitution

/-! ### Substitution in the store of a tree -/

open Store Substitution

mutual
theorem size_graft : ∀ (t : Tree) (s : Store), (graft t s).2.size = s.size + t.size
  | .node head children, s => by
      rw [graft, Tree.size]
      dsimp only
      rw [size_graftBelow, size_add]
      omega

theorem size_graftBelow : ∀ (parent : NodeId) (ts : List Tree) (s : Store),
    (graftBelow parent ts s).size = s.size + Tree.sizeList ts
  | parent, [], s => rfl
  | parent, t :: rest, s => by
      rw [graftBelow, Tree.sizeList]
      dsimp only
      rw [size_graftBelow, setRole, size_modifyHead, append_eq, size_attach, size_graft,
        Nat.add_assoc]
end

/-- The root of the store of a tree shows the tree. -/
theorem shows_ofTree (t : Tree) : (ofTree t).Shows (ofTree t).root t := by
  obtain ⟨hid, -, -, -, hshows⟩ :=
    grown_graft (P := fun _ => True) (fun _ _ _ _ _ => trivial) (t := t) trivial {}
  have hroot : (ofTree t).root = (graft t {}).1 := rfl
  -- Choosing the root changes no node.
  have hnode : ∀ id, True → (ofTree t).node id = (graft t {}).2.node id :=
    fun _ _ => rfl
  rw [hroot, hid]
  exact Shows.mono (M := fun _ => True) hnode (fun _ _ _ _ => trivial) t _ trivial hshows

theorem depth_le_size_ofTree (t : Tree) : t.depth ≤ (ofTree t).size := by
  have hsize : (ofTree t).size = (graft t {}).2.size := rfl
  rw [hsize, size_graft]
  exact t.depth_le_size.trans (Nat.le_add_left _ _)

variable {write : Data.Writer}

theorem run_substituteBy (p : Permutation) (s : Store) :
    (substituteBy write p).run.run s = (visit write p (s.size + 1) s.root).run.run s := by
  rw [substituteBy]
  by_cases h : p.isEmpty
  · rw [if_pos h, run_visit_of_isEmpty h]
    rfl
  · rw [if_neg h, Pass.run_get_bind]

/-- Substitution does the same for settings that agree on the names that a tree asks about. -/
theorem run_substituteBy_congr {p q : Permutation} {t : Tree}
    (hagree : ∀ name ∈ asked t, q.get? name = p.get? name) :
    (substituteBy write q).run.run (.ofTree t) = (substituteBy write p).run.run (.ofTree t) := by
  rw [run_substituteBy, run_substituteBy]
  exact run_visit_congr (forest_ofTree t) (shows_ofTree t) (depth_le_size_ofTree t) hagree _

theorem run_substitute_congr {p q : Permutation} {t : Tree}
    (hagree : ∀ name ∈ asked t, q.get? name = p.get? name) :
    (substitute q).run.run (.ofTree t) = (substitute p).run.run (.ofTree t) :=
  run_substituteBy_congr hagree

/-- Substitution fails exactly if an answer is rejected. -/
theorem fault?_substituteBy (p : Permutation) (t : Tree) :
    (substituteBy write p).fault? (.ofTree t) = (rejected? write p t).map .text := by
  rw [Pass.fault?, run_substituteBy]
  exact fault?_visit (forest_ofTree t) (shows_ofTree t) (depth_le_size_ofTree t) p
    ((depth_le_size_ofTree t).trans (Nat.le_succ _))

theorem fault?_substitute (p : Permutation) (t : Tree) :
    (substitute p).fault? (.ofTree t) = (rejected? Data.text p t).map .text :=
  fault?_substituteBy p t

end ScriptMin
