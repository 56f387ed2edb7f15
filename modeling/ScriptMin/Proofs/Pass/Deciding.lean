import ScriptMin.Proofs.Pass.Cutting
import ScriptMin.Proofs.Pass.Untaken

/-!
What decisions cut out. Where a decision has an effect, the node gives way to the part that is
taken, to the statements of a block, or to nothing.
-/

namespace ScriptMin

open Store

namespace Store

variable {s s' s₁ : Store} {id parent new x p c : NodeId} {lost : Option NodeId}
  {ids news : List NodeId} {t : Tree}

theorem flatMap_instead (hid : id ∉ ids) :
    ids.flatMap (instead id news lost) = ids.filter (lost ≠ some ·) := by
  induction ids with
  | nil => rfl
  | cons c rest ih =>
      rw [List.mem_cons, not_or] at hid
      rw [List.flatMap_cons, List.filter_cons, ih hid.2, instead, if_neg (Ne.symm hid.1)]
      by_cases hlost : lost = some c <;> simp [hlost]

/-- Beside the node that gives way, rows have its place taken by others. -/
theorem Puts.children_instead (h : Puts s s' id news) (hs : s.Forest) (hx : x < s.size)
    (hout : ¬ s.Within x id) (hlost : ∀ c ∈ s.children x, lost ≠ some c) :
    s'.children x = (s.children x).flatMap (instead id news lost) := by
  by_cases hplace : s.parent? id = some x
  · obtain ⟨before, behind, hsplit⟩ := List.append_of_mem ((hs.linked x id).mpr hplace)
    have hnodup := hsplit ▸ hs.nodup x
    rw [List.nodup_append, List.nodup_cons] at hnodup
    have hbefore : id ∉ before := fun hmem => hnodup.2.2 id hmem id List.mem_cons_self rfl
    have hkeep : ∀ {ids : List NodeId}, (∀ c ∈ ids, c ∈ s.children x) →
        ids.filter (lost ≠ some ·) = ids := fun hsub =>
      List.filter_eq_self.mpr fun c hc => decide_eq_true (hlost c (hsub c hc))
    have hleft : ∀ c ∈ before, c ∈ s.children x := by simp +contextual [hsplit]
    have hright : ∀ c ∈ behind, c ∈ s.children x := by simp +contextual [hsplit]
    rw [h.place x before behind hsplit, hsplit, List.flatMap_append, List.flatMap_cons,
      flatMap_instead hbefore, flatMap_instead hnodup.2.1.1, instead, if_pos rfl, hkeep hleft,
      hkeep hright, List.append_assoc]
  · rw [h.children_eq x hx hout hplace, flatMap_instead fun hmem => hplace (hs.parent?_of_mem hmem)]
    exact (List.filter_eq_self.mpr fun c hc => decide_eq_true (hlost c hc)).symm

/-! ### Rows that stay -/

theorem children_replace_of_ne (h : s.Linked) (hlink : s.parent? id = some p) (hne : id ≠ new)
    (hx : x ≠ p) (hnew : s.parent? new ≠ some x) :
    (s.replace id new).children x = s.children x := by
  have hlink' : ((s.detach new).setRole new (s.role? id)).parent? id = some p := by
    rw [parent?_setRole, parent?_detach, if_neg hne, hlink]
  have hmoved : ((s.detach new).setRole new (s.role? id)).Linked := h.detach.setRole _
  rw [replace_eq hne]
  simp only [hlink']
  rw [children_swap (hmoved.parent_lt hlink') (hmoved.nodup p), if_neg hx, setRole,
    children_modifyHead, children_detach, if_neg hnew]

theorem children_foldl_insertBefore (h : s.Linked) (hlink : s.parent? id = some p) (hx : x ≠ p)
    (hids : ∀ c ∈ ids, c ≠ id ∧ c < s.size ∧ c ≠ s.root ∧ s.parent? c ≠ some x) :
    (ids.foldl (fun s c => s.insertBefore id c) s).children x = s.children x := by
  induction ids generalizing s with
  | nil => rfl
  | cons c rest ih =>
      obtain ⟨⟨hne, hlt, hroot, hc⟩, hrest⟩ := List.forall_mem_cons.mp hids
      obtain ⟨before, behind, hsplit⟩ := List.append_of_mem ((h.linked p id).mpr hlink)
      have hp := h.parent_lt hlink
      have hinsert : s.insertBefore id c = s.attach p (fun ids =>
          ids.insertIdx (min before.length ids.length) c) c := insertBefore_eq h hlink hsplit
      have hparent : ∀ y, (s.insertBefore id c).parent? y =
          if y = c then some p else s.parent? y := fun y => by
        rw [hinsert, parent?_attach hlt]
      have hlinked : (s.insertBefore id c).Linked := by
        rw [hinsert]
        exact h.attach (fun ids => List.perm_insertIdx c ids (Nat.min_le_right _ _)) hp hlt hroot
      have hrest' : ∀ d ∈ rest, d ≠ id ∧ d < (s.insertBefore id c).size ∧
          d ≠ (s.insertBefore id c).root ∧ (s.insertBefore id c).parent? d ≠ some x := by
        intro d hd
        obtain ⟨hdne, hdlt, hdroot, hdx⟩ := hrest d hd
        refine ⟨hdne, ?_, ?_, ?_⟩
        · rwa [hinsert, size_attach]
        · rwa [hinsert, root, chosenRoot_attach]
        · rw [hparent]
          split
          · exact fun heq => hx (Option.some_inj.mp heq).symm
          · exact hdx
      rw [List.foldl_cons, ih hlinked (by rw [hparent, if_neg hne.symm, hlink]) hrest', hinsert,
        children_attach hp, if_neg hx, children_detach, if_neg hc]

theorem head_foldl_insertBefore :
    (ids.foldl (fun s c => s.insertBefore id c) s).head x = s.head x :=
  List.foldlRecOn (motive := fun s' : Store => s'.head x = s.head x) _ _ rfl
    fun _ hs _ _ => head_insertBefore.trans hs

theorem size_insertBefore : (s.insertBefore id c).size = s.size := by
  rw [insertBefore]
  split
  · rw [insert_eq, size_attach]
  · rfl

theorem size_foldl_insertBefore :
    (ids.foldl (fun s c => s.insertBefore id c) s).size = s.size :=
  List.foldlRecOn (motive := fun s' : Store => s'.size = s.size) _ _ rfl
    fun _ hs _ _ => size_insertBefore.trans hs

/-! ### What is taken comes free -/

/-- A part of a node is to be taken. If it is a block, its role and a `break` at its end may be gone;
else all is as it was. -/
structure Trimmed (s s₁ : Store) (new : NodeId) (lost : Option NodeId) : Prop where
  size_eq : s₁.size = s.size
  linked : s₁.Linked
  bare_eq : ∀ x, (s₁.head x).bare = (s.head x).bare
  flags_eq : ∀ x, s₁.flags x = s.flags x
  role_eq : ∀ x, x ≠ new → lost ≠ some x → s₁.role? x = s.role? x
  parent?_eq : ∀ x, lost ≠ some x → s₁.parent? x = s.parent? x
  children_eq : ∀ x, s₁.children x = (s.children x).filter (lost ≠ some ·)
  lost_leaf : ∀ y, lost = some y → s.kind y = .breakStmt ∧ s.children y = []
  lost_link : ∀ y, lost = some y → s.parent? y = some new ∧ s.kind new = .block

namespace Trimmed

theorem refl (h : s.Linked) (new : NodeId) : Trimmed s s new none where
  size_eq := rfl
  linked := h
  bare_eq _ := rfl
  flags_eq _ := rfl
  role_eq _ _ _ := rfl
  parent?_eq _ _ := rfl
  children_eq x := by simp
  lost_leaf := nofun
  lost_link := nofun

/-- The `break` at the end of a block is taken away, and the block loses its role. -/
theorem remove {last : NodeId} (h : s.Linked) (hlast : s.parent? last = some new)
    (hblock : s.kind new = .block) (hkind : s.kind last = .breakStmt)
    (hnil : s.children last = []) :
    Trimmed s ((s.remove last).setRole new none) new (some last) where
  size_eq := by rw [Store.setRole, size_modifyHead, size_remove]
  linked := (h.detach.setRole none).setRole none
  bare_eq x := by rw [bare_setRole, bare_remove]
  flags_eq x := by rw [flags_setRole, flags_remove]
  role_eq x hx hlost := by
    rw [role?_setRole_of_ne hx, role?_remove]
    exact fun heq => hlost (congrArg some heq.symm)
  parent?_eq x hlost := by
    rw [parent?_setRole, parent?_remove, if_neg]
    exact fun heq => hlost (congrArg some heq.symm)
  children_eq x := by
    rw [Store.setRole, children_modifyHead, h.children_remove]
    refine List.filter_congr fun c _ => ?_
    simp [eq_comm]
  lost_leaf := by rintro _ ⟨⟩; exact ⟨hkind, hnil⟩
  lost_link := by rintro _ ⟨⟩; exact ⟨hlast, hblock⟩

variable (ht : Trimmed s s₁ new lost) (hs : s.Forest)

include ht hs

theorem lost_ne (hwithin : s.Within new id) : lost ≠ some id := by
  intro heq
  exact hs.acyclic id new (ht.lost_link id heq).1 hwithin

/-- Where a part takes the place of a node, or its children do, that is a cut. -/
theorem cuts (hlink : s.parent? id = some parent) (hwithin : s.Within new id) (hne : new ≠ id)
    (hputs : Puts s s' id news) (hsize : s'.size = s₁.size)
    (hbare : ∀ x, (s'.head x).bare = (s₁.head x).bare) (hflags : ∀ x, s'.flags x = s₁.flags x)
    (hrole : ∀ x, x ∉ news → x ≠ id → s'.role? x = s₁.role? x)
    (hnews : news = [new] ∨ ∀ n ∈ news, s.parent? n = some new)
    (hinside : ∀ n ∈ news, ∀ x, s.Within x n → s'.children x = s₁.children x)
    (halone : ∀ p, s.parent? id = some p → (s.kind p).isStatementList = false →
      ∃ n, news = [n] ∧ s'.role? n = s.role? id) : Cuts s s' id news lost := by
  have hbelow : ∀ n ∈ news, s.Within n new := by
    intro n hn
    rcases hnews with rfl | hnews
    · rw [List.mem_singleton.mp hn]
      exact .refl
    · exact within_of_parent (hnews n hn)
  have hparent : ¬ s.Within parent id := hs.acyclic id parent hlink
  have hnewId : ¬ s.Within id new := by
    obtain ⟨q, hq, hqid⟩ := hwithin.cases.resolve_left hne
    exact fun hback => hs.acyclic new q hq (hqid.trans hback)
  have hinsideRow : ∀ {x}, s.Within x new → id ∉ s.children x := fun {x} hx hmem =>
    hparent (by
      obtain rfl := Option.some_inj.mp ((hs.parent?_of_mem hmem).symm.trans hlink)
      exact hx.trans hwithin)
  have hlostOut : ∀ x, ¬ s.Within x id → ∀ c ∈ s.children x, lost ≠ some c := by
    intro x hx c hc hlost
    have heq := (hs.parent?_of_mem hc).symm.trans (ht.lost_link c hlost).1
    exact hx (Option.some_inj.mp heq ▸ hwithin)
  refine ⟨hs, hputs.forest, ?_, hputs.root_eq, hs.toLinked.ne_root hlink, fun x _ => ?_,
    fun x _ => ?_, fun x hx hstays hnot hlost => ?_, fun x hx hstays => ?_,
    fun n hn _ => ⟨?_, ?_⟩, ?_, ?_, ht.lost_leaf, fun y hy => ?_, fun y hy n hn hyn => ?_, halone⟩
  · rw [hsize, ht.size_eq]
  · rw [hbare, ht.bare_eq]
  · rw [hflags, ht.flags_eq]
  · rw [hrole x hnot]
    · refine ht.role_eq x ?_ hlost
      rintro rfl
      rcases hstays with hout | ⟨n, hn, hin⟩
      · exact hout hwithin
      · rcases hnews with rfl | hnews
        · exact hnot List.mem_cons_self
        · exact hs.acyclic n x (hnews n hn) hin
    · rintro rfl
      rcases hstays with hout | ⟨n, hn, hin⟩
      · exact hout .refl
      · exact hnewId (hin.trans (hbelow n hn))
  · rcases hstays with hout | ⟨n, hn, hin⟩
    · exact hputs.children_instead hs hx hout (hlostOut x hout)
    · rw [hinside n hn x hin, ht.children_eq, flatMap_instead]
      exact hinsideRow (hin.trans (hbelow n hn))
  · exact (hbelow n hn).trans hwithin
  · rintro rfl
    exact hnewId (hbelow n hn)
  · intro n hn n' hn' hin
    by_contra hdistinct
    rcases hnews with rfl | hnews
    · exact hdistinct ((List.mem_singleton.mp hn).trans (List.mem_singleton.mp hn').symm)
    · exact hs.not_within_sibling (hnews n hn) (hnews n' hn') hdistinct hin
  · intro n hn hle
    refine absurd hle (Nat.not_le_of_lt ?_)
    obtain rfl | ⟨q, hq, -⟩ := ((hbelow n hn).trans hwithin).cases
    · exact parent?_lt hlink
    · exact parent?_lt hq
  · obtain ⟨hy', hblock⟩ := ht.lost_link y hy
    refine ⟨(within_of_parent hy').trans hwithin, ?_, new, hy', hblock⟩
    rintro rfl
    exact ht.lost_ne hs hwithin hy
  · have hy' := (ht.lost_link y hy).1
    rcases hnews with rfl | hnews
    · exact .inr (List.mem_singleton.mp hn ▸ hy')
    · refine .inl ?_
      by_contra hother
      exact hs.not_within_sibling hy' (hnews n hn) hother hyn

/-- A part takes the place of a node. -/
theorem cuts_replace (hready : Prepared s id parent s₁ [id] [(new, t)]) (hwithin : s.Within new id)
    (hne : new ≠ id) : Cuts s (s₁.replace id new) id [new] lost := by
  have hlink := hready.link
  obtain ⟨hputs, hshown⟩ := hready.replace hne
  have hparent : ¬ s.Within parent id := hs.acyclic id parent hlink
  refine ht.cuts hs hlink hwithin hne hputs size_replace (fun x => bare_replace)
    (fun x => flags_replace) (fun x hx _ => role?_replace (by simpa using hx)) (.inl rfl) ?_ ?_
  · intro n hn x hx
    obtain rfl := List.mem_singleton.mp hn
    refine children_replace_of_ne ht.linked (hready.link_of_mem List.mem_cons_self) hne.symm ?_ ?_
    · rintro rfl
      exact hparent (hx.trans hwithin)
    · rw [ht.parent?_eq n fun hlost => hs.acyclic n n (ht.lost_link n hlost).1 .refl]
      exact fun heq => hs.acyclic n x heq hx
  · intro _ _ _
    exact ⟨new, rfl, (congrArg Head.role hshown.head_eq).trans (by simp)⟩

/-- The statements of a block take the place of a node in a list of statements. -/
theorem cuts_spliceBefore (hready : Prepared s id parent s₁ [id] [(new, t)])
    (hwithin : s.Within new id) (hne : new ≠ id) (hlist : (s.kind parent).isStatementList)
    (hputs : Puts s (s₁.spliceBefore new id) id (s₁.children new)) :
    Cuts s (s₁.spliceBefore new id) id (s₁.children new) lost := by
  have hlink := hready.link
  have hparent : ¬ s.Within parent id := hs.acyclic id parent hlink
  have hchild : ∀ c ∈ s₁.children new, s.parent? c = some new := by
    intro c hc
    rw [ht.children_eq] at hc
    exact hs.parent?_of_mem (List.mem_of_mem_filter hc)
  have hlink₁ : s₁.parent? id = some parent := hready.link_of_mem List.mem_cons_self
  refine ht.cuts hs hlink hwithin hne hputs ?_ (fun x => ?_) (fun x => ?_) (fun x _ hx => ?_)
    (.inr hchild) (fun n hn x hx => ?_) fun p hp hother => ?_
  · rw [spliceBefore, size_remove, size_foldl_insertBefore]
  · rw [spliceBefore, bare_remove, head_foldl_insertBefore]
  · rw [spliceBefore, flags_remove, flags, head_foldl_insertBefore]
    rfl
  · rw [spliceBefore, role?_remove hx, role?, head_foldl_insertBefore]
    rfl
  · have hxnew : s.Within x new := hx.trans (within_of_parent (hchild n hn))
    have hxp : x ≠ parent := by
      rintro rfl
      exact hparent (hxnew.trans hwithin)
    have hrow : ((s₁.children new).foldl (fun s c => s.insertBefore id c) s₁).children x =
        s₁.children x := by
      refine children_foldl_insertBefore ht.linked hlink₁ hxp fun c hc => ?_
      have hc₁ := ht.linked.parent?_of_mem hc
      refine ⟨?_, parent?_lt hc₁, ht.linked.ne_root hc₁, fun heq => ?_⟩
      · rintro rfl
        obtain rfl := Option.some_inj.mp (hc₁.symm.trans hlink₁)
        exact hparent hwithin
      · obtain rfl := Option.some_inj.mp (hc₁.symm.trans heq)
        exact hs.acyclic n new (hchild n hn) hx
    rw [spliceBefore, Store.remove, Store.setRole, children_modifyHead, children_detach, hrow]
    refine (ite_eq_right_iff.mpr fun _ => List.filter_eq_self.mpr fun c hc => decide_eq_true ?_)
    rintro rfl
    exact hxp (Option.some_inj.mp ((ht.linked.parent?_of_mem hc).symm.trans hlink₁))
  · obtain rfl := Option.some_inj.mp (hlink.symm.trans hp)
    rw [hlist] at hother
    cases hother

/-- A part takes the place of a statement, or if it is a block, what is in it can do so. -/
theorem cuts_replaceStatement (hready : Prepared s id parent s₁ [id] [(new, t)])
    (hwithin : s.Within new id) (hne : new ≠ id) :
    Cuts s (s₁.replaceStatement id new) id [new] lost ∨
      s.kind new = .block ∧ Cuts s (s₁.replaceStatement id new) id (s₁.children new) lost := by
  have hkind : ∀ x, s₁.kind x = s.kind x := fun x => Head.kind_of_bare (ht.bare_eq x)
  rw [Store.replaceStatement]
  split
  case isTrue hcase =>
      simp only [Bool.and_eq_true, beq_iff_eq] at hcase
      have hlist := hcase.1.1
      rw [inStatementList, parentKind?, hready.link_of_mem List.mem_cons_self, Option.map_some,
        Option.any_some, hkind] at hlist
      exact .inr ⟨hkind new ▸ hcase.1.2,
        ht.cuts_spliceBefore hs hready hwithin hne hlist hready.spliceBefore.1⟩
  case isFalse => exact .inl (ht.cuts_replace hs hready hwithin hne)

end Trimmed

section

variable (hs : s.Forest) (hlink : s.parent? id = some parent) (hnew : new ∈ s.children id)

include hs hlink hnew

/-- A child takes the place of a node. -/
theorem cuts_replace : Cuts s (s.replace id new) id [new] none := by
  have hready := Prepared.start_children hs hlink (List.cons_subset.mpr ⟨hnew, List.nil_subset _⟩)
    (List.nodup_singleton new)
  exact (Trimmed.refl hs.toLinked new).cuts_replace hs hready
    (within_of_parent (hs.parent?_of_mem hnew)) (hs.ne_of_within hnew .refl)

/-- A child takes the place of a statement, or if it is a block, what is in it can do so. -/
theorem cuts_replaceStatement : Cuts s (s.replaceStatement id new) id [new] none ∨
    s.kind new = .block ∧ Cuts s (s.replaceStatement id new) id (s.children new) none := by
  have hready := Prepared.start_children hs hlink (List.cons_subset.mpr ⟨hnew, List.nil_subset _⟩)
    (List.nodup_singleton new)
  exact (Trimmed.refl hs.toLinked new).cuts_replaceStatement hs hready
    (within_of_parent (hs.parent?_of_mem hnew)) (hs.ne_of_within hnew .refl)

end

/-- A statement is taken away. -/
theorem exists_cuts_removeStatement (hs : s.Forest) (hlink : s.parent? id = some parent) :
    ∃ news, Cuts s (s.removeStatement id) id news none ∧ ∀ n ∈ news, s.size ≤ n := by
  have hstart : Prepared s id parent s ([] ++ [id]) [] := .start hs hlink (by simp) .nil
  rw [Store.removeStatement]
  split
  case isTrue hlist =>
      obtain ⟨hputs, -⟩ := hstart.drop (by simp)
      have hout : ∀ x, s.Stays id [] x → ¬ s.Within x id := by
        refine fun x hx => hx.resolve_right ?_
        rintro ⟨_, hn, _⟩
        exact List.not_mem_nil hn
      refine ⟨[], ⟨hs, hs.remove, size_remove.ge, hputs.root_eq, hs.toLinked.ne_root hlink,
        fun x _ => bare_remove, fun x _ => flags_remove, fun x _ hx _ _ => ?_,
        fun x hx hstays => ?_, by simp, by simp, by simp, by simp, by simp, by simp,
        fun p hp hother => ?_⟩, by simp⟩
      · exact role?_remove fun heq => hout x hx (heq ▸ .refl)
      · exact hputs.children_instead hs hx (hout x hstays) (by simp)
      · rw [inStatementList, parentKind?, hp, Option.map_some, Option.any_some, hother] at hlist
        cases hlist
  case isFalse =>
      rcases hadd : s.add { kind := .semicolon, span := s.span id } with ⟨empty, s₁⟩
      obtain ⟨hputs, hshown⟩ := (hstart.add hadd).replace (hstart.new_ne hadd)
      obtain ⟨rfl, h₁⟩ := added_of_add hs.toLinked hadd
      have hout : ∀ x < s.size, s.Stays id [s.size] x → ¬ s.Within x id := by
        refine fun x hx hstays => hstays.resolve_right ?_
        rintro ⟨n, hn, hin⟩
        rw [List.mem_singleton.mp hn] at hin
        exact absurd (hs.within_lt hx hin) (Nat.lt_irrefl _)
      refine ⟨[s.size], ⟨hs, hputs.forest, ?_, hputs.root_eq, hs.toLinked.ne_root hlink,
        fun x hx => ?_, fun x hx => ?_, fun x hx _ hnot _ => ?_, fun x hx hstays => ?_, ?_, ?_, ?_,
        by simp, by simp, by simp, fun p hp _ => ⟨s.size, rfl, ?_⟩⟩, ?_⟩
      · rw [size_replace, h₁.size_eq]
        exact Nat.le_succ _
      · rw [bare_replace, h₁.head_of_lt hx]
      · rw [flags_replace, flags, h₁.head_of_lt hx]
        rfl
      · rw [role?_replace (by simpa using hnot), role?, h₁.head_of_lt hx]
        rfl
      · exact hputs.children_instead hs hx (hout x hx hstays) (by simp)
      · simp
      · simp
      · simp only [List.mem_singleton, forall_eq]
        refine fun _ => ⟨congrArg Head.kind hshown.head_eq, ?_⟩
        exact List.map_eq_nil_iff.mp (hputs.forest.map_view_eq hshown.children)
      · exact (congrArg Head.role hshown.head_eq).trans rfl
      · simp

end Store

/-- A conditional expression has the value of the part that its condition leads to. -/
theorem Valuation.Agrees.value_conditional {s : Store} {v : Valuation} {x c y : NodeId}
    (h : v.Agrees s) (hx : s.Within x s.root) (hkind : s.kind x = .conditional)
    (hc : s.nth? x 0 = some c) (hy : s.nth? x (if v.holds c then 1 else 2) = some y) :
    v.value x = v.value y := by
  obtain ⟨rest, hids⟩ := exists_cons_of_nth? hc
  have hhead : { s.head x with kind := .conditional } = s.head x := by rw [← hkind]; rfl
  refine h x hx _ ?_
  rw [← hhead, hids]
  change (if v.accepts (v.value c) then (rest.map v.value)[0]? else (rest.map v.value)[1]?) = _
  have hlater : ∀ i, s.nth? x (i + 1) = rest[i]? := fun i => by
    rw [nth?, hids, List.getElem?_cons_succ]
  rw [holds] at hy
  split at hy
  case isTrue htrue => rw [if_pos htrue, List.getElem?_map, ← hlater, hy, Option.map_some]
  case isFalse hfalse => rw [if_neg hfalse, List.getElem?_map, ← hlater, hy, Option.map_some]

namespace Store

variable {s s' s₁ : Store} {id parent new x p c : NodeId} {lost : Option NodeId}
  {ids news : List NodeId} {t : Tree}

/-! ### Decisions -/

/-- A statement ends in a `break` other than one that is lost. -/
structure EndsApart (s : Store) (lost : Option NodeId) (x : NodeId) : Prop where
  ends : s.EndsInBreak x
  other : ∀ y, lost = some y → s.parent? y = some x → ∃ c ∈ s.children x, c ≠ y ∧ s.EndsInBreak c

/-- A node that is decided gives way, and no effect that is needed goes with it. A conditional
expression gives way to the part that its condition leads to, which has its value. A statement
whose place is taken by one that ends in a `break` does so itself. -/
structure Resolves (s s' : Store) (id : NodeId) (news : List NodeId) (lost : Option NodeId) :
    Prop extends Cuts s s' id news lost where
  kind_mem : s.kind id = .conditional ∨ s.kind id = .ifElse ∨ s.kind id = .switchCase
  choice : s.kind id = .conditional → ∃ c b n, news = [n] ∧ s.condition? id = some c ∧
    s.Determined c b ∧ s.branch? id b = some n ∧
    ∀ v : Valuation, v.Agrees s → v.value n = v.value id
  ends : ∀ n ∈ news, n < s.size → s.EndsApart lost n → s.EndsInBreak id
  idle : ∀ x, s.Within x id → (∀ n ∈ news, ¬ s.Within x n) → (s.kind x).isEffect → s.Needless x

/-- What ends in a `break` is no expression. -/
theorem EndsInBreak.not_isExpression (h : s.EndsInBreak x) : (s.head x).isExpression = false := by
  have hkind : s.kind x = .breakStmt ∨ s.kind x = .block ∨ s.kind x = .ifElse := by
    cases h with
    | here hbreak => exact .inl ((kind_view x).symm.trans hbreak.kind)
    | block hkind => exact .inr (.inl hkind)
    | branch hkind => exact .inr (.inr hkind)
  rw [Head.isExpression]
  rcases hkind with hkind | hkind | hkind
  all_goals
    rw [show (s.head x).kind = _ from hkind]
    rfl

section

variable {b : Bool} {y : NodeId} {i : Nat} (hs : s.Sound) (hseats : s.Seated)
  (hid : s.Within id s.root)

include hs hseats hid

end

end Store

namespace Branches

variable {s : Store} {id parent branch c : NodeId} {b : Bool}

theorem mem_of_condition? (h : s.condition? id = some c) : c ∈ s.children id := by
  rw [condition?] at h
  split at h
  · exact mem_of_child? h
  · exact mem_of_nth? h
  · cases h

theorem mem_of_branch? (h : s.branch? id b = some c) : c ∈ s.children id := by
  rw [branch?] at h
  split at h
  · exact mem_of_child? h
  · exact mem_of_nth? h
  · cases h

section

variable (hs : s.Sound) (ho : s.Ordered) (hseats : s.Seated) (hid : s.Within id s.root)

include hs ho hseats hid

end

end Branches

end ScriptMin
