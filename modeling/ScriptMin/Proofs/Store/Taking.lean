import ScriptMin.Pass.Statement
import ScriptMin.Proofs.Store.Preparing

/-!
Statements that take the place of a statement, and statements that are taken away. Outside of the
place nothing changes; in it stand the statements of a block, or the block or another statement, or
nothing or the empty statement.
-/

namespace ScriptMin.Store

variable {s s' : Store} {id parent child new anchor x p : NodeId} {front : List NodeId} {t : Tree}
  {ready todo done : List (NodeId × Tree)}

theorem insertIdx_before (front behind : List NodeId) (child : NodeId) :
    (front ++ behind).insertIdx front.length child = front ++ child :: behind := by
  induction front with
  | nil => rfl
  | cons first rest ih => exact congrArg (first :: ·) ih

namespace Prepared

/-- What stands in the place is below the parent. -/
theorem link_of_mem {ids : List NodeId} (h : Prepared s id parent s' ids ready) (hx : x ∈ ids) :
    s'.parent? x = some parent := by
  obtain ⟨before, behind, hsplit⟩ := List.append_of_mem ((h.base.linked parent id).mpr h.link)
  refine h.forest.parent?_of_mem ?_
  rw [h.place before behind hsplit]
  simp [hx]

/-- What is ready for a place below a node is ready for the place of the node. -/
theorem outward (h : Prepared s x p s' [x] ready) (hwithin : s.Within x id) (hne : x ≠ id)
    (hlink : s.parent? id = some parent) : Prepared s id parent s' [id] ready := by
  have hp : s.Within p id := by
    obtain ⟨q, hq, hqid⟩ := hwithin.cases.resolve_left hne
    rw [h.link, Option.some_inj] at hq
    exact hq ▸ hqid
  have hpparent : s.Within p parent := hp.trans (within_of_parent hlink)
  have hparent : ¬ s.Within parent id := h.base.acyclic id parent hlink
  have hout : ∀ y, ¬ s.Within y id → ¬ s.Within y x ∧ y ≠ p := by
    refine fun y hy => ⟨fun hback => hy (hback.trans hwithin), ?_⟩
    rintro rfl
    exact hy hp
  have hid : ¬ s.Within id x := fun hback => h.base.acyclic x p h.link (hp.trans hback)
  refine { h with
    line := ?_
    link := hlink
    head_eq := fun y hy hyid => h.head_eq y hy (hout y hyid).1
    children_eq := fun y hy hyid _ => h.children_eq y hy (hout y hyid).1 (hout y hyid).2
    parent?_eq := fun y hy hyid => h.parent?_eq y hy (hout y hyid).1
    place := fun before behind hsplit => ?_
    self := h.head_eq id (parent?_lt hlink) hid
    movable := fun r hr => ⟨(h.movable r hr).toLoose, ?_⟩
    own := fun r hr => (h.own r hr).imp_right fun hrx => hrx.trans hwithin }
  · rintro _ rfl z hz
    exact h.line p rfl z (hpparent.trans hz)
  · rw [h.children_eq parent (h.base.parent_lt hlink) (hout parent hparent).1
      (hout parent hparent).2, hsplit, List.append_assoc]
    rfl
  · rintro _ rfl hback
    exact (h.movable r hr).off p rfl (((h.within_iff rfl).mpr hpparent).trans hback)

/-- A part is taken out of a node below the place. What is left of the node lies ready. -/
theorem start_remove_below (hs : s.Forest) (hlink : s.parent? id = some parent)
    (hx : s.parent? x = some p) (hwithin : s.Within x id) (hne : x ≠ id)
    (hchild : child ∈ s.children x) :
    Prepared s id parent (s.remove child) [id]
      [(x, .node (s.head x) (((s.children x).filter (· ≠ child)).map s.view))] :=
  ((start_remove hs hx hchild).sub (List.singleton_sublist.mpr List.mem_cons_self).subperm).outward
    hwithin hne hlink

/-- A tree is put before the last node that stands in the place. -/
theorem insertBefore (h : Prepared s id parent s' (front ++ [anchor]) ((child, t) :: ready))
    (hid : child ≠ id) (hnot : child ∉ front ++ [anchor]) :
    Prepared s id parent (s'.insertBefore anchor child) (front ++ [child] ++ [anchor])
      ((child, t) :: ready) := by
  have hchild : (child, t) ∈ (child, t) :: ready := List.mem_cons_self
  have hmovable := h.movable _ hchild
  have hplace : ∀ before behind, s.children parent = before ++ id :: behind →
      s'.children parent = (before ++ front) ++ anchor :: behind := by
    intro before behind hsplit
    rw [h.place before behind hsplit]
    simp
  obtain ⟨before, behind, hsplit⟩ := List.append_of_mem ((h.base.linked parent id).mpr h.link)
  have hanchor := h.link_of_mem (x := anchor) (by simp)
  have hindex := h.forest.toLinked.indexOf?_eq hanchor (hplace before behind hsplit)
  have hinsert : s'.insertBefore anchor child = (s'.attach parent
      (fun ids => ids.insertIdx (min (before ++ front).length ids.length) child) child).modifyHead
        child fun h => h := by
    rw [modifyHead_self, Store.insertBefore, hanchor, hindex]
    rfl
  have hplt := h.forest.parent_lt hanchor
  suffices hmoved : Prepared s id parent (s'.insertBefore anchor child)
      (front ++ [child] ++ [anchor]) ((child, t.mapHead fun h => h) :: ready) by
    rwa [Tree.mapHead_self] at hmoved
  rw [hinsert]
  refine h.of_moves (h.forest.moves (fun ids => List.perm_insertIdx child ids
    (Nat.min_le_right _ _)) hplt hmovable.toLoose (hmovable.off _ rfl) _) hid
    (fun y _ _ hne => hne) (fun before' behind' hsplit' => ?_)
    fun r hr => (h.movable r (List.mem_cons_of_mem _ hr)).off _ rfl
  -- The node stands at one position only.
  have hindex' := h.forest.toLinked.indexOf?_eq hanchor (hplace before' behind' hsplit')
  have hlength : (before ++ front).length = (before' ++ front).length :=
    Option.some_inj.mp (hindex.symm.trans hindex')
  have hle : (before' ++ front).length ≤ ((before' ++ front) ++ anchor :: behind').length := by
    simp only [List.length_append, List.length_cons]
    omega
  rw [children_modifyHead, children_attach hplt, if_pos rfl, children_detach,
    if_neg (h.parent?_ne hchild hid hnot), hplace before' behind' hsplit', hlength,
    min_eq_left hle, insertIdx_before]
  simp

/-- Trees are put before the node in the place one after the other. -/
theorem foldl_insertBefore
    (h : Prepared s id parent s' (front ++ [id]) (todo ++ done))
    (hnew : ∀ r ∈ todo, r.1 ≠ id ∧ r.1 ∉ front) :
    Prepared s id parent
      ((todo.map Prod.fst).foldl (fun s child => s.insertBefore id child) s')
      (front ++ todo.map Prod.fst ++ [id]) (todo ++ done) := by
  induction todo generalizing s' front done with
  | nil => simpa using h
  | cons r rest ih =>
      obtain ⟨hid, hfront⟩ := hnew r List.mem_cons_self
      have hstep := h.insertBefore hid (by simp [hid, hfront])
      have hrest : ∀ q ∈ rest, q.1 ≠ id ∧ q.1 ∉ front ++ [r.1] := by
        intro q hq
        have hq' := hnew q (List.mem_cons_of_mem _ hq)
        have hapart := (List.pairwise_cons.mp h.apart).1 q (List.mem_append_left _ hq)
        refine ⟨hq'.1, fun hmem => ?_⟩
        rcases List.mem_append.mp hmem with hmem | hmem
        · exact hq'.2 hmem
        · exact hapart.2 (List.mem_singleton.mp hmem ▸ .refl)
      have hperm : (rest ++ r :: done).Perm (r :: (rest ++ done)) := List.perm_middle
      have hfold := ih (hstep.sub hperm.subperm) hrest
      rw [List.append_assoc front, List.singleton_append] at hfold
      exact hfold.sub hperm.symm.subperm

/-- The node in the place goes; what has been put before it stays. -/
theorem drop (h : Prepared s id parent s' (front ++ [id]) ready) (hready : ∀ r ∈ ready, r.1 ≠ id) :
    Puts s (s'.remove id) id front ∧ ∀ r ∈ ready, (s'.remove id).Shows r.1 r.2 := by
  have hlink := h.link_of_mem (x := id) (by simp)
  have hhead : ∀ y ≠ id, (s'.remove id).head y = s'.head y := by
    intro y hy
    rw [Store.remove, Store.setRole, head_modifyHead, if_neg fun h => hy h.1, head_detach]
  have hchildrenOf : ∀ y, (s'.remove id).children y =
      if y = parent then (s'.children y).filter (· ≠ id) else s'.children y := by
    intro y
    rw [Store.remove, Store.setRole, children_modifyHead, children_detach, hlink]
    simp only [Option.some_inj, eq_comm]
  refine ⟨⟨h.forest.remove, ?_, fun y hy hout => ?_, fun y hy hout hne => ?_,
    fun q before behind hsplit => ?_⟩, fun r hr => ?_⟩
  · rw [root, Store.remove, Store.setRole, chosenRoot_modifyHead, chosenRoot_detach]
    exact h.root_eq
  · rw [hhead y fun heq => hout (heq ▸ .refl), h.head_eq y hy hout]
  · have hyp : y ≠ parent := fun heq => hne (heq ▸ h.link)
    rw [hchildrenOf, if_neg hyp, h.children_eq y hy hout hyp]
  · obtain rfl : parent = q := by
      have hq : s.parent? id = some q := h.base.parent?_of_mem (by rw [hsplit]; simp)
      rw [h.link, Option.some_inj] at hq
      exact hq
    have hnodup := h.forest.nodup parent
    rw [hchildrenOf, if_pos rfl, h.place before behind hsplit] at *
    simp only [List.append_assoc, List.singleton_append, List.nodup_append, List.nodup_cons,
      List.mem_append, List.mem_cons] at hnodup
    have hself : ∀ l : List NodeId, id ∉ l → l.filter (· ≠ id) = l := by
      intro l hl
      refine List.filter_eq_self.mpr fun y hy => decide_eq_true ?_
      rintro rfl
      exact hl hy
    have hbefore : id ∉ before := fun hmem => hnodup.2.2 id hmem id (by simp) rfl
    have hfront : id ∉ front := fun hmem => hnodup.2.1.2.2 id hmem id (by simp) rfl
    simp only [List.filter_append, hself before hbefore, hself front hfront,
      hself behind hnodup.2.1.2.1.1]
    simp
  · have hmovable := h.movable r hr
    have hparent : ¬ s'.Within parent r.1 := hmovable.off parent rfl
    refine h.forest.shows_of_off h.forest.remove (T := fun y => y = id ∨ y = parent)
      (fun y hy => hhead y fun heq => hy (.inl heq)) (fun y hy => ?_) ?_ (h.shows r hr)
    · rw [hchildrenOf, if_neg fun heq => hy (.inr heq)]
    · rintro y (rfl | rfl) hback
      · obtain ⟨q, hq, hqr⟩ := hback.cases.resolve_left (Ne.symm (hready r hr))
        rw [hlink, Option.some_inj] at hq
        exact hparent (hq ▸ hqr)
      · exact hparent hback

/-- The statements of a block take the place of a statement. -/
theorem spliceBefore (h : Prepared s id parent s' [id] [(new, t)]) :
    Puts s (s'.spliceBefore new id) id (s'.children new) ∧
      (s'.children new).map (s'.spliceBefore new id).view = t.children := by
  have hmem : (new, t) ∈ [(new, t)] := List.mem_cons_self
  have hshows : s'.Shows new t := h.shows _ hmem
  have hparts : Prepared s id parent s' ([] ++ [id])
      ((s'.children new).map (fun c => (c, s'.view c)) ++ []) := h.parts
  have hnew : ∀ r ∈ (s'.children new).map fun c => (c, s'.view c),
      r.1 ≠ id ∧ r.1 ∉ ([] : List NodeId) := by
    refine List.forall_mem_map.mpr fun c hc => ⟨?_, List.not_mem_nil⟩
    rintro rfl
    have hlink := h.forest.parent?_of_mem hc
    rw [h.link_of_mem List.mem_cons_self, Option.some_inj] at hlink
    exact (h.movable _ hmem).off parent rfl (hlink ▸ .refl)
  have hfold := hparts.foldl_insertBefore hnew
  have hfst : ((s'.children new).map fun c => (c, s'.view c)).map Prod.fst = s'.children new := by
    rw [List.map_map]
    exact List.map_id _
  rw [hfst, List.nil_append, List.append_nil] at hfold
  obtain ⟨hputs, hshown⟩ := hfold.drop fun r hr => (hnew r hr).1
  refine ⟨hputs, ?_⟩
  rw [← h.forest.view_eq hshows, h.forest.children_view]
  refine List.map_congr_left fun c hc => hputs.forest.view_eq ?_
  exact hshown (c, s'.view c) (List.mem_map_of_mem hc)

/-- A tree takes the place of a statement: a block is dissolved or put there, anything else is put
there. -/
theorem replaceStatement (h : Prepared s id parent s' [id] [(new, t)]) (hne : new ≠ id) :
    ∃ news, Puts s (s'.replaceStatement id new) id news ∧
      (t.kind = .block ∧ news.map (s'.replaceStatement id new).view = t.children ∨
        news.map (s'.replaceStatement id new).view = [t.inRole (s.role? id)]) := by
  have hshows : s'.Shows new t := h.shows _ List.mem_cons_self
  rw [Store.replaceStatement]
  split
  case isTrue hcase =>
      simp only [Bool.and_eq_true, beq_iff_eq] at hcase
      obtain ⟨hputs, hviews⟩ := h.spliceBefore
      exact ⟨_, hputs, .inl ⟨hshows.kind_eq ▸ hcase.1.2, hviews⟩⟩
  case isFalse =>
      obtain ⟨hputs, hshown⟩ := h.replace hne
      refine ⟨_, hputs, .inr ?_⟩
      rw [List.map_singleton, hputs.forest.view_eq hshown]

end Prepared

/-- A statement is taken away. -/
theorem Forest.puts_removeStatement (hs : s.Forest) (hlink : s.parent? id = some parent) :
    ∃ news, Puts s (s.removeStatement id) id news ∧
      (news = [] ∨ ∃ head, head.kind = .semicolon ∧
        news.map (s.removeStatement id).view = [.node head []]) := by
  have hstart : Prepared s id parent s ([] ++ [id]) [] := .start hs hlink (by simp) .nil
  rw [Store.removeStatement]
  split
  case isTrue =>
      exact ⟨[], (hstart.drop (by simp)).1, .inl rfl⟩
  case isFalse =>
      rcases hadd : s.add { kind := .semicolon, span := s.span id } with ⟨empty, s₁⟩
      obtain ⟨hputs, hshown⟩ := (hstart.add hadd).replace (hstart.new_ne hadd)
      refine ⟨_, hputs, .inr ⟨{ kind := .semicolon, span := s.span id, role := s.role? id }, rfl, ?_⟩⟩
      exact congrArg (fun t => [t]) (hputs.forest.view_eq hshown)

end ScriptMin.Store
