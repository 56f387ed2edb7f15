import ScriptMin.Proofs.Pass.Lightening
import ScriptMin.Proofs.Pass.Soundness

/-!
Reductions of blocks and lists of statements lower the burden of the tree. Dissolving a block or
collapsing one puts less in its place. Where expression statements are merged, nodes move from one
statement to another; none of them gets heavier, a comma expression may come in, and a statement,
which is heavier, goes. So every round that reports a change lowers the burden.
-/

namespace ScriptMin

open Store Edit

variable {s s' : Store} {id : NodeId}

namespace Blocks

variable {list previous current first second comma : NodeId} {rest : List NodeId}

/-! ### Dissolving and collapsing -/

/-- The statements of a block take its place. -/
theorem puts_spliceBefore_self (h : s.Forest) {parent : NodeId} (hlink : s.parent? id = some parent) :
    Puts s (s.spliceBefore id id) id (s.children id) ∧
      (s.children id).map (s.spliceBefore id id).view = (s.children id).map s.view := by
  have hparts : Prepared s id parent s ([] ++ [id])
      ((s.children id).map (fun c => (c, s.view c)) ++ []) := by
    rw [List.append_nil]
    exact .start_children h hlink (List.Subset.refl _) (h.nodup id)
  have hnew : ∀ r ∈ (s.children id).map fun c => (c, s.view c), r.1 ≠ id ∧ r.1 ∉ ([] : List NodeId) :=
    List.forall_mem_map.mpr fun c hc => ⟨h.ne_of_within hc .refl, List.not_mem_nil⟩
  have hfold := hparts.foldl_insertBefore hnew
  have hfst : ((s.children id).map fun c => (c, s.view c)).map Prod.fst = s.children id := by
    rw [List.map_map]
    exact List.map_id _
  rw [hfst, List.nil_append, List.append_nil] at hfold
  obtain ⟨hputs, hshown⟩ := hfold.drop fun r hr => (hnew r hr).1
  refine ⟨hputs, List.map_congr_left fun c hc => hputs.forest.view_eq ?_⟩
  exact hshown (c, s.view c) (List.mem_map_of_mem hc)

theorem lightens_dissolve (h : s.Forest) (hid : s.Within id s.root) (hne : id ≠ s.root) :
    (dissolve id).Lightens id s := by
  obtain ⟨parent, hlink⟩ := exists_parent hid hne
  have hchildren : Tree.burdenList ((s.children id).map s.view) < (s.view id).burden := by
    have hhead := Tree.head_le_burden (s.view id)
    have hkind := (s.view id).kind.burden_pos
    rw [h.children_view] at hhead
    omega
  rw [Edit.Lightens, dissolve, gives_bind, gives_get]
  split
  · refine gives_ite (fun _ => ?_) fun _ => Store.Lightens.unchanged h id
    rw [gives_bind, gives_modify, gives_pure]
    have hstart : Prepared s id parent s ([] ++ [id]) [] := .start h hlink (by simp) .nil
    exact .of_puts (hstart.drop (by simp)).1 h hid hne (Nat.zero_lt_of_lt hchildren)
  · refine gives_ite (fun _ => Store.Lightens.unchanged h id) fun _ => ?_
    rw [gives_bind, gives_modify, gives_pure]
    obtain ⟨hputs, hviews⟩ := puts_spliceBefore_self h hlink
    exact .of_puts hputs h hid hne (hviews ▸ hchildren)
  · exact Store.Lightens.unchanged h id

theorem lightens_collapse (h : s.Forest) (hid : s.Within id s.root) (hne : id ≠ s.root)
    (hkind : s.kind id = .block) : (collapse id).Lightens id s := by
  obtain ⟨parent, hlink⟩ := exists_parent hid hne
  have hblock : 3 + roleBurden (s.role? id) + Tree.burdenList ((s.children id).map s.view) ≤
      (s.view id).burden := by
    have hhead := Tree.head_le_burden (s.view id)
    rwa [kind_view, hkind, head_view, h.children_view] at hhead
  rw [Edit.Lightens, collapse, gives_bind, gives_get]
  refine gives_ite (fun _ => Store.Lightens.unchanged h id) fun _ => ?_
  split
  case h_1 =>
      have hstart : Prepared s id parent s [id] [] := .start h hlink (by simp) .nil
      rcases hadd : s.add { kind := .semicolon, span := s.span id } with ⟨empty, s₁⟩
      obtain ⟨hputs, hshown⟩ := (hstart.add hadd).replace (hstart.new_ne hadd)
      dsimp only
      rw [gives_bind, gives_set, gives_pure]
      refine .of_puts hputs h hid hne ?_
      have hview := hputs.forest.view_eq hshown
      have hburden := Tree.burden_inRole_le (.node { kind := .semicolon, span := s.span id } [])
        (s.role? id)
      rw [← hview] at hburden
      simp only [Tree.burden, Tree.burdenList, Tree.weight_node, Tree.weightList_nil, Head.burden,
        Kind.burden, roleBurden, List.map_cons, List.map_nil, Tree.weightList_cons] at *
      simp only [Bool.false_eq_true, if_false] at hburden
      omega
  case h_2 statement hchildren =>
      have hmem : statement ∈ s.children id := by
        rw [hchildren]
        exact List.mem_singleton_self _
      refine gives_ite (fun _ => Store.Lightens.unchanged h id) fun _ => ?_
      rw [gives_bind, gives_modify, gives_pure]
      have hnodes : [statement] ⊆ s.children id := by simpa using hmem
      have hstart := Prepared.start_children h hlink hnodes (List.nodup_singleton _)
      obtain ⟨hputs, hshown⟩ := hstart.replace (h.ne_of_within hmem .refl)
      refine .of_puts hputs h hid hne ?_
      have hview := hputs.forest.view_eq hshown
      have hburden := Tree.burden_inRole_le (s.view statement) (s.role? id)
      rw [← hview] at hburden
      rw [hchildren] at hblock
      simp only [Tree.burden, Tree.burdenList, List.map_cons, List.map_nil, Tree.weightList_cons,
        Tree.weightList_nil] at *
      omega
  case h_3 => exact Store.Lightens.unchanged h id

end Blocks

/-! ### Shifting nodes -/

namespace Store

variable {M : Set NodeId} {parent child old new comma current list : NodeId}

/-- Some nodes move, and none becomes a heavier burden. -/
structure Shifts (M : Set NodeId) (s s' : Store) : Prop where
  parent?_eq : ∀ x ∉ M, s'.parent? x = s.parent? x
  burden_le : ∀ x, (s'.head x).burden ≤ (s.head x).burden

namespace Shifts

theorem refl (M : Set NodeId) (s : Store) : Shifts M s s := ⟨fun _ _ => rfl, fun _ => Nat.le_refl _⟩

theorem trans {s'' : Store} (h : Shifts M s s') (h' : Shifts M s' s'') : Shifts M s s'' :=
  ⟨fun x hx => (h'.parent?_eq x hx).trans (h.parent?_eq x hx),
    fun x => (h'.burden_le x).trans (h.burden_le x)⟩

end Shifts

theorem shifts_append (hlt : child < s.size) (hchild : child ∈ M) :
    Shifts M s (s.append parent child) where
  parent?_eq x hx := by
    rw [parent?_append hlt, if_neg]
    rintro rfl
    exact hx hchild
  burden_le x := by rw [append_eq, head_attach]

theorem shifts_setRole_none (M : Set NodeId) : Shifts M s (s.setRole id none) where
  parent?_eq x _ := parent?_setRole none
  burden_le x := by
    rw [setRole, head_modifyHead]
    split
    · exact Nat.add_le_add_left (Nat.zero_le _) _
    · exact Nat.le_refl _

theorem shifts_remove (hid : id ∈ M) : Shifts M s (s.remove id) := by
  have hdetach : Shifts M s (s.detach id) := by
    refine ⟨fun x hx => ?_, fun x => by rw [head_detach]⟩
    rw [parent?_detach, if_neg]
    rintro rfl
    exact hx hid
  exact hdetach.trans (shifts_setRole_none M)

theorem shifts_foldl_append (ids : List NodeId) (hids : ∀ c ∈ ids, c < s.size ∧ c ∈ M) :
    Shifts M s (ids.foldl (fun s c => s.append parent c) s) := by
  induction ids generalizing s with
  | nil => exact .refl M s
  | cons c rest ih =>
      rw [List.forall_mem_cons] at hids
      refine (shifts_append hids.1.1 hids.1.2).trans (ih fun d hd => ?_)
      rw [append_eq, size_attach]
      exact hids.2 d hd

theorem burden_pos_head (x : NodeId) : 1 ≤ (s.head x).burden := by
  have hkind := (s.head x).kind.burden_pos
  rw [Head.burden]
  omega

/-- Where nodes of the tree and a light new one move while a heavier one goes, the burden of the
tree is lowered. -/
theorem Shifts.burden_lt (comma current : NodeId) (h : Shifts M s s') (hs : s.Forest) (hs' : s'.Forest)
    (hroot : s'.root = s.root) (hmoved : ∀ x ∈ M, x = comma ∨ s.Within x s.root)
    (hcomma : comma < s.size → s.Within comma s.root) (hlight : (s'.head comma).burden ≤ 1)
    (hcurrent : s.Within current s.root) (hne : current ≠ s.root)
    (hheavy : 2 ≤ (s.head current).burden) (hgone : s'.parent? current = none) :
    s'.burden < s.burden := by
  have hreached : ∀ x, s'.Within x s.root → x = comma ∨ s.Within x s.root := by
    intro x hx
    induction hx using Relation.ReflTransGen.head_induction_on with
    | refl => exact .inr .refl
    | @head x p hp _ ih =>
        by_cases hxM : x ∈ M
        · exact hmoved x hxM
        · have hlink : s.parent? x = some p := (h.parent?_eq x hxM).symm.trans hp
          right
          rcases ih with rfl | hwithin
          · exact (within_of_parent hlink).trans (hcomma (hs.parent_lt hlink))
          · exact (within_of_parent hlink).trans hwithin
  have hout : ∀ x, s'.Within x s.root → x ≠ current := by
    rintro x hx rfl
    rcases hx.cases with heq | ⟨p, hp, -⟩
    · exact hne heq
    · rw [hgone] at hp
      cases hp
  rw [hs.burden_eq_sum, hs'.burden_eq_sum, hroot]
  set before := (s.descendants s.root).toFinset
  set behind := (s'.descendants s.root).toFinset
  have hsubset : behind ⊆ Insert.insert comma (before.erase current) := by
    intro x hx
    rw [List.mem_toFinset, hs'.mem_descendants_iff] at hx
    rw [Finset.mem_insert, Finset.mem_erase, List.mem_toFinset, hs.mem_descendants_iff]
    exact (hreached x hx).imp_right fun hwithin => ⟨hout x hx, hwithin⟩
  have hmem : current ∈ before := by
    rw [List.mem_toFinset, hs.mem_descendants_iff]
    exact hcurrent
  have hinsert : ∑ x ∈ Insert.insert comma (before.erase current), (s'.head x).burden ≤
      1 + ∑ x ∈ before.erase current, (s'.head x).burden := by
    by_cases hin : comma ∈ before.erase current
    · rw [Finset.insert_eq_of_mem hin]
      exact Nat.le_add_left _ _
    · rw [Finset.sum_insert hin]
      exact Nat.add_le_add_right hlight _
  calc ∑ x ∈ behind, (s'.head x).burden
      ≤ ∑ x ∈ Insert.insert comma (before.erase current), (s'.head x).burden :=
        Finset.sum_le_sum_of_subset hsubset
    _ ≤ 1 + ∑ x ∈ before.erase current, (s'.head x).burden := hinsert
    _ ≤ 1 + ∑ x ∈ before.erase current, (s.head x).burden :=
        Nat.add_le_add_left (Finset.sum_le_sum fun x _ => h.burden_le x) 1
    _ < (s.head current).burden + ∑ x ∈ before.erase current, (s.head x).burden :=
        Nat.add_lt_add_right hheavy _
    _ = ∑ x ∈ before, (s.head x).burden :=
        Finset.add_sum_erase before (fun x => (s.head x).burden) hmem

end Store

namespace Blocks

variable {list previous current first second comma : NodeId} {rest : List NodeId}

/-! ### Merging -/

theorem shifts_commaAround (h : s.Forest) (hfirst : s.expressionOf? previous = some first) :
    Gives (commaAround first) s fun comma s' =>
      (comma = first ∨ s.size ≤ comma) ∧ (s'.head comma).burden ≤ 1 ∧ comma < s'.size ∧
        ∀ M : Set NodeId, comma ∈ M → first ∈ M → Shifts M s s' := by
  obtain ⟨hkind, hchild⟩ := kind_role_of_expressionOf? hfirst
  have hrole : s.role? first = some .expression := role?_of_child? hchild
  have hlt := h.toLinked.child_lt (mem_of_child? hchild)
  rw [commaAround, gives_bind, gives_get]
  split
  case isTrue hopen =>
      refine ⟨.inl rfl, ?_, hlt, fun M _ _ => .refl M s⟩
      simp only [isOpenComma, Bool.and_eq_true, beq_iff_eq, Bool.not_eq_true'] at hopen
      change (s.head first).burden ≤ 1
      rw [Head.burden, show (s.head first).kind = .comma from hopen.1,
        show (s.head first).flags.parenthesized = false from hopen.2,
        show (s.head first).role = some .expression from hrole]
      decide
  case isFalse =>
      rcases hadd : s.add { kind := .comma, span := s.span first } with ⟨comma, s₁⟩
      obtain rfl : comma = s.size := new_of_add hadd
      obtain ⟨hbuilt, -⟩ := h.built_add (S := ∅) hadd
      have hcomma : s.size < s₁.size := hbuilt.loose_new.lt
      have hfirst₁ : first < s₁.size := hlt.trans hcomma
      have hne : first ≠ s.size := Nat.ne_of_lt hlt
      obtain rfl : (s.add { kind := .comma, span := s.span first }).2 = s₁ := congrArg Prod.snd hadd
      have hlight : (((s.add { kind := .comma, span := s.span first }).2.replace first
          s.size).head s.size).burden = 1 := by
        rw [head_replace hne hcomma, if_pos rfl, head_add, if_pos rfl, role?, head_add,
          if_neg hne]
        change 1 + 0 + roleBurden (s.role? first) = 1
        rw [hrole]
        rfl
      dsimp only
      rw [gives_bind, gives_set, gives_pure]
      refine ⟨.inr (Nat.le_refl _), ?_, ?_, fun M hcommaM hfirstM => ?_⟩
      · refine ((shifts_setRole_none ∅).burden_le _).trans ?_
        rw [append_eq, head_attach]
        exact hlight.le
      · rw [setRole, size_modifyHead, append_eq, size_attach, size_replace]
        exact hcomma
      · have hadd' : Shifts M s (s.add { kind := .comma, span := s.span first }).2 := by
          refine ⟨fun x _ => parent?_add _, fun x => ?_⟩
          rw [head_add]
          split
          · exact burden_pos_head x
          · exact Nat.le_refl _
        have hreplace : Shifts M (s.add { kind := .comma, span := s.span first }).2
            ((s.add { kind := .comma, span := s.span first }).2.replace first s.size) := by
          refine ⟨fun x hx => ?_, fun x => ?_⟩
          · rw [parent?_replace hne hcomma, if_neg, if_neg]
            · rintro rfl
              exact hx hfirstM
            · rintro rfl
              exact hx hcommaM
          · by_cases hx : x = s.size
            · rw [hx, hlight]
              exact burden_pos_head _
            · rw [head_replace hne hcomma, if_neg hx]
        refine hadd'.trans (hreplace.trans (.trans (shifts_append ?_ hfirstM)
          (shifts_setRole_none M)))
        rwa [size_replace]

theorem shifts_extendComma {M : Set NodeId} (h : s.Linked) (hlt : second < s.size)
    (hsecond : second ∈ M) (hparts : ∀ c ∈ s.children second, c ∈ M) :
    Shifts M s (extendComma comma second s) := by
  rw [extendComma]
  split
  · exact shifts_foldl_append _ fun c hc => ⟨h.child_lt hc, hparts c hc⟩
  · exact (shifts_append hlt hsecond).trans (shifts_setRole_none M)

/-- Two expression statements become one, which is a lighter burden. -/
theorem lightens_merge (h : s.Forest) (hlist : s.Within list s.root)
    (hids : Siblings s list (previous :: current :: rest))
    (hfirst : s.expressionOf? previous = some first)
    (hsecond : s.expressionOf? current = some second) :
    Gives (commaAround first) s fun comma s' =>
      Siblings ((extendComma comma second s').remove current) list (previous :: rest) ∧
        ((extendComma comma second s').remove current).Within list s.root ∧
        Store.Lightens s list true ((extendComma comma second s').remove current) := by
  have hfirstMem := mem_of_expressionOf? hfirst
  have hsecondMem := mem_of_expressionOf? hsecond
  have hcommaAround := gives_commaAround (S := {previous}) h (h.parent?_of_mem hfirstMem)
    (h.movable_child hfirstMem) rfl (singleton_lt (lt_of_mem_children hfirstMem))
  refine ((gives_merge h hids hfirstMem hsecondMem).and (hcommaAround.and
    (shifts_commaAround h hfirst))).mono fun comma s₁ hs => ?_
  obtain ⟨hsteady, ⟨hs₁, -, -⟩, hwhich, hlight, -, hshifts⟩ := hs
  have hpreviousLink := hids.parent previous List.mem_cons_self
  have hcurrentLink := hids.parent current (List.mem_cons_of_mem _ List.mem_cons_self)
  have hsecondLink := h.parent?_of_mem hsecondMem
  -- What moves is the comma expression, or it comes from below the list.
  let M : Set NodeId := {x | x = comma ∨ x = first ∨ x = current ∨ x = second ∨
    s.parent? x = some second}
  have hbelow : ∀ x ∈ M, x = comma ∨ s.Within x list := by
    rintro x (rfl | rfl | rfl | rfl | hx)
    · exact .inl rfl
    · exact .inr ((within_of_parent (h.parent?_of_mem hfirstMem)).trans
        (within_of_parent hpreviousLink))
    · exact .inr (within_of_parent hcurrentLink)
    · exact .inr ((within_of_parent hsecondLink).trans (within_of_parent hcurrentLink))
    · exact .inr ((within_of_parent hx).trans
        ((within_of_parent hsecondLink).trans (within_of_parent hcurrentLink)))
  have hextend : Shifts M s₁ (extendComma comma second s₁) := by
    refine shifts_extendComma hs₁.forest.toLinked (hs₁.lt (parent?_lt hsecondLink))
      (.inr (.inr (.inr (.inl rfl)))) fun c hc => ?_
    by_contra hcM
    have hlink := (hshifts M (.inl rfl) (.inr (.inl rfl))).parent?_eq c hcM
    rw [hs₁.forest.parent?_of_mem hc] at hlink
    exact hcM (.inr (.inr (.inr (.inr hlink.symm))))
  have hcurrentM : current ∈ M := .inr (.inr (.inl rfl))
  have hlater := hextend.trans (shifts_remove hcurrentM)
  have hshift := (hshifts M (.inl rfl) (.inr (.inl rfl))).trans hlater
  have hcommaOut : ∀ x, s.Within x s.root → ¬ s.Within x list → x ∉ M := by
    intro x hx hout hxM
    rcases hbelow x hxM with rfl | hwithin
    · rcases hwhich with rfl | hle
      · exact hout ((within_of_parent (h.parent?_of_mem hfirstMem)).trans
          (within_of_parent hpreviousLink))
      · exact absurd (h.lt_of_reached hx) (Nat.not_lt.mpr hle)
    · exact hout hwithin
  have hsiblings := (hids.sublist (List.Sublist.cons_cons _ (List.sublist_cons_self _ _))).of_steady
    hsteady
  refine ⟨hsiblings, ?_, ⟨hsteady.forest, hsteady.root_eq, ?_⟩, ?_, nofun⟩
  · -- The first statement is still in the tree, and so is the list.
    have hreached := (hsteady.within_iff (y := s.root) List.mem_cons_self).mpr
      ((within_of_parent hpreviousLink).trans hlist)
    rcases hreached.cases with heq | ⟨p, hp, hroot⟩
    · exact absurd heq (ne_root_of_parent h.toLinked hpreviousLink)
    · rw [hsiblings.parent previous List.mem_cons_self, Option.some_inj] at hp
      exact hp ▸ hroot
  · intro x p hx hout hp
    rw [hshift.parent?_eq x (hcommaOut x hx hout), hp]
  · rintro -
    refine hshift.burden_lt comma current h hsteady.forest hsteady.root_eq
      (fun x hx => (hbelow x hx).imp_right (·.trans hlist)) (fun hlt => ?_)
      ((hlater.burden_le comma).trans hlight) ((within_of_parent hcurrentLink).trans hlist)
      (ne_root_of_parent h.toLinked hcurrentLink) ?_ ?_
    · rcases hwhich with rfl | hle
      · exact (within_of_parent (h.parent?_of_mem hfirstMem)).trans
          ((within_of_parent hpreviousLink).trans hlist)
      · exact absurd hlt (Nat.not_lt.mpr hle)
    · rw [Head.burden, show (s.head current).kind = .semicolon from
        (kind_role_of_expressionOf? hsecond).1, show Kind.burden .semicolon = 2 from rfl]
      omega
    · rw [remove, parent?_setRole, parent?_detach, if_pos rfl]

theorem lightens_mergeInto (h : s.Forest) (hlist : s.Within list s.root)
    (hids : Siblings s list (previous :: rest)) :
    Gives (mergeInto previous rest) s fun changed s' =>
      s'.Within list s'.root ∧ Store.Lightens s list changed s' := by
  induction rest generalizing s previous with
  | nil => exact ⟨hlist, .unchanged h list⟩
  | cons current rest ih =>
      rw [mergeInto, gives_bind, gives_get]
      split
      case h_2 => exact ih h hlist (hids.sublist (List.sublist_cons_self _ _))
      case h_1 first second hfirst hsecond =>
          rw [gives_bind]
          refine (lightens_merge h hlist hids hfirst hsecond).mono fun comma s₁ hs => ?_
          obtain ⟨hids₁, hlist₁, hmerge⟩ := hs
          rw [gives_bind, gives_modify, gives_bind]
          rw [← hmerge.root_eq] at hlist₁
          refine (ih hmerge.forest hlist₁ hids₁).mono fun changed s₂ hs₂ => ?_
          exact ⟨hs₂.1, hmerge.trans hs₂.2 h⟩

theorem lightens_sweep_dissolve (h : s.Forest) (hlist : s.Within list s.root) {ids : List NodeId}
    (hids : Siblings s list ids) :
    Gives (sweep dissolve ids) s fun changed s' =>
      s'.Within list s'.root ∧ Store.Lightens s list changed s' := by
  have hsweep := @gives_sweep_changed _ dissolve ids s
    (fun ids s => s.Forest ∧ s.Within list s.root ∧ Siblings s list ids)
    (fun s changed s' => s.Forest → Store.Lightens s list changed s') ⟨h, hlist, hids⟩
    (fun s hs hforest => .unchanged hforest list)
    (fun s a s' b s'' ha hb hforest => (ha hforest).trans (hb (ha hforest).forest) hforest)
    fun item rest s hs => ?_
  · exact hsweep.mono fun changed s' hs' => ⟨hs'.1.2.1, hs'.2 h⟩
  · obtain ⟨hs, hlist, hids⟩ := hs
    have hlink := hids.parent item List.mem_cons_self
    refine (lightens_dissolve hs ((within_of_parent hlink).trans hlist)
      (ne_root_of_parent hs.toLinked hlink)).mono fun changed s' hs' => ?_
    refine ⟨⟨hs'.forest, hs'.reached hs hlist ?_, ?_⟩,
      fun _ => hs'.outward (within_of_parent hlink)⟩
    · exact hs.acyclic item list hlink
    · refine ⟨(List.nodup_cons.mp hids.nodup).2, fun y hy => ?_⟩
      have hy' := hids.parent y (List.mem_cons_of_mem _ hy)
      refine hs'.link y list ((within_of_parent hy').trans hlist) ?_ hy'
      exact ((hids.movable hs).off y hy)

theorem lightens_reduceList (h : s.Forest) (hlist : s.Within list s.root) :
    Gives (reduceList list) s fun changed s' =>
      s'.Within list s'.root ∧ Store.Lightens s list changed s' := by
  rw [reduceList, gives_bind, gives_get, gives_bind]
  refine (lightens_sweep_dissolve h hlist (siblings_children h list)).mono fun dissolved s₁ hs => ?_
  obtain ⟨hlist₁, hdissolve⟩ := hs
  rw [gives_bind, gives_get]
  split
  case h_1 => exact ⟨hlist₁, hdissolve⟩
  case h_2 first rest hchildren =>
      rw [gives_bind]
      refine (lightens_mergeInto hdissolve.forest hlist₁
        (hchildren ▸ siblings_children hdissolve.forest list)).mono fun merged s₂ hs₂ => ?_
      exact ⟨hs₂.1, hdissolve.trans hs₂.2 h⟩

/-! ### Reducing a node -/

theorem lightens_reduceForm (hs : s.Sound) (h : s.Forest) (hid : s.Within id s.root) :
    (reduceForm id).Lightens id s := by
  have hne : s.kind id ≠ .script → id ≠ s.root := by
    rintro hkind rfl
    exact hkind hs.root_kind
  rw [Edit.Lightens, reduceForm, gives_bind, gives_get]
  split
  case h_1 => exact (lightens_reduceList h hid).mono fun _ _ hs' => hs'.2
  case h_2 hkind =>
      rw [gives_bind]
      refine ((lightens_reduceList h hid).and (keeps_reduceList hs (by rw [hkind]; rfl))).mono
        fun reduced s₁ hs₁ => ?_
      obtain ⟨⟨hid₁, hreduce⟩, hevolves⟩ := hs₁
      have hkind₁ : s₁.kind id = .block := by
        rw [hevolves.kind_eq id (h.lt_of_reached hid), hkind]
      rw [gives_bind]
      refine (lightens_collapse hreduce.forest hid₁ ?_ hkind₁).mono fun collapsed s₂ hs₂ => ?_
      · rw [hreduce.root_eq]
        exact hne (by simp [hkind])
      · exact hreduce.trans hs₂ h
  case h_3 hkind => exact Conditions.lightens_reduceIf h hid (hne (by simp [hkind])) hkind
  case h_4 hkind => exact Expressions.lightens_foldNegation h hid (hne (by simp [hkind]))
  case h_5 hkind _ _ _ =>
      exact gives_ite (fun _ => Expressions.lightens_foldLiterals h hid (hne hkind))
        fun _ => Store.Lightens.unchanged h id

theorem lightens_reduceNode (hs : s.Sound) (h : s.Forest) (hid : s.Within id s.root) :
    (reduceNode id).Lightens id s := by
  rw [Edit.Lightens, reduceNode, gives_bind]
  refine ((Expressions.lightens_removeParens h hid).and
    (Expressions.keeps_removeParens hs)).mono fun parens s₁ hs₁ => ?_
  obtain ⟨⟨hid₁, hparens⟩, hevolves⟩ := hs₁
  rw [gives_bind]
  refine (lightens_reduceForm hevolves.sound hparens.forest hid₁).mono fun form s₂ hs₂ => ?_
  exact hparens.trans hs₂ h

end Blocks

/-! ### Rounds -/

/-- A round that reports a change lowers the burden of the tree, and one that reports none adds
copies to the store at most. -/
theorem lightens_reduceBlocks (hs : s.Sound) (h : s.Forest) :
    reduceBlocks.Lightens s.root s := by
  rw [Edit.Lightens, reduceBlocks, gives_bind, gives_get]
  have hsweep := @gives_sweep_changed _ Blocks.reduceNode _ s
    (fun ids s => s.Sound ∧ s.Forest ∧ Pending s ids)
    (fun s changed s' => s.Forest → Store.Lightens s s.root changed s')
    ⟨hs, h, h.pending_postorder⟩ (fun s _ hforest => .unchanged hforest s.root)
    (fun s a s' b s'' ha hb hforest => ?_) fun id rest s hs => ?_
  · exact hsweep.mono fun changed s' hs' => hs'.2 h
  · have ha := ha hforest
    have hb := hb ha.forest
    rw [ha.root_eq] at hb
    exact ha.trans hb hforest
  · obtain ⟨hs, hforest, hpending⟩ := hs
    have hid := hpending.reached id List.mem_cons_self
    refine ((Blocks.lightens_reduceNode hs hforest hid).and (Blocks.keeps_reduceNode hs)).mono
      fun changed s' hs' => ?_
    exact ⟨⟨hs'.2.sound, hs'.1.forest, hpending.step hforest hs'.1.toLocal⟩,
      fun _ => hs'.1.outward hid⟩

end ScriptMin
