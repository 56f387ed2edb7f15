import ScriptMin.Proofs.Pass.Combining

/-!
The steps of a combination of declarations. Neighbouring lists are merged, a list is made, dissolved,
pruned or moved into the head of a loop. Each step keeps what happens in the body in order.
-/

namespace ScriptMin

open Edit

namespace Store

variable {s s' : Store} {b c d l p q x y : NodeId} {D A T : NodeId → Prop} {keep : Event → Bool}

/-- What a list of declarations brings. -/
theorem Forest.events_list (h : s.Forest) (hkind : s.kind l = .varList) : s.events keep l =
    [Event.list l].filter keep ++ (s.children l).flatMap (s.events keep) := by
  have hgoes : (s.kind l).goesOn := by rw [hkind]; rfl
  rw [h.events_eq, bodyEvents, onward_of_goesOn hgoes, event?_of_goesOn hgoes, if_pos hkind,
    Option.toList_some]

/-- What declarations bring is what those with initializers bring. -/
theorem Forest.flatMap_events_filter (h : s.Forest) {declarations : List NodeId}
    (hkinds : ∀ d ∈ declarations, s.kind d = .declaration) :
    (declarations.filter fun d => (s.child? d .initializer).isSome).flatMap (s.events keep) =
      declarations.flatMap (s.events keep) := by
  induction declarations with
  | nil => rfl
  | cons d rest ih =>
      rw [List.forall_mem_cons] at hkinds
      rw [List.filter_cons, List.flatMap_cons]
      split
      case isTrue => rw [List.flatMap_cons, ih hkinds.2]
      case isFalse hnone =>
          rw [h.events_of_idle hkinds.1 (Option.not_isSome_iff_eq_none.mp hnone), List.nil_append,
            ih hkinds.2]

theorem flatMap_eq_of_forall₂ {α β γ : Type} {r : α → β → Prop} {f : α → List γ} {g : β → List γ}
    {as : List α} {bs : List β} (h : List.Forall₂ r as bs) (hr : ∀ a ∈ as, ∀ b, r a b → g b = f a) :
    bs.flatMap g = as.flatMap f := by
  induction h with
  | nil => rfl
  | cons hab _ ih =>
      rw [List.forall_mem_cons] at hr
      rw [List.flatMap_cons, List.flatMap_cons, hr.1 _ hab, ih hr.2]

/-- The others among the children of a node. -/
theorem Forest.mem_of_split (h : s.Forest) {before behind : List NodeId}
    (hsplit : s.children p = before ++ l :: behind) (hc : c ∈ before ++ behind) :
    c ∈ s.children p ∧ c ≠ l := by
  have hnodup := hsplit ▸ h.nodup p
  rw [← filter_ne_append hnodup, List.mem_filter, decide_eq_true_iff] at hc
  rw [hsplit]
  exact hc

theorem Forest.ne_of_mem (h : s.Forest) (hc : c ∈ s.children y) : c ≠ y := by
  rintro rfl
  exact h.acyclic _ _ (h.parent?_of_mem hc) .refl

end Store

namespace Declarations

open Store

variable {s s' : Store} {b collector list p : NodeId} {declared declared' : NameSet}
  {keep : Event → Bool}

/-! ### A list is dissolved -/

namespace Dissolves

variable (h : Dissolves collector list p declared declared' s s') (hs : s.Standing collector list p)
include h

theorem row_of_ne {x : NodeId} (hx : x < s.size) (hcollector : x ≠ collector) (hlist : x ≠ list)
    (hp : x ≠ p) (hmem : x ∉ s.children list) :
    s'.children x = s.children x ∧ ∀ role, s'.child? x role = s.child? x role := by
  have hoff : ¬ ((x = collector ∨ x ∈ s.children list) ∨ x = list ∨ x = p) := by
    rintro ((hD | hD) | hD | hD)
    exacts [hcollector hD, hmem hD, hlist hD, hp hD]
  exact ⟨h.collects.touches.row x hx hoff, h.collects.touches.child?_eq hx hoff⟩

/-- What is not the list stays at its place, unless it is a part of the list. -/
theorem mem_of_mem {x c : NodeId} (hx : x ≠ list) (hmem : x ∉ s.children list)
    (hc : c ∈ s.children x) (hne : c ≠ list) : c ∈ s'.children x := by
  have hlt : x < s.size := lt_of_mem_children hc
  by_cases hcollector : x = collector
  · obtain ⟨news, hrow, -⟩ := h.collects.row
    rw [hcollector] at hc ⊢
    rw [hrow]
    exact List.mem_append_left _ hc
  by_cases hp : x = p
  · obtain ⟨items, assigns, hplace⟩ := h.supplants
    obtain ⟨before, behind, hsplit, hsplit'⟩ := hplace.row
    rw [hp] at hc ⊢
    rw [hsplit] at hc
    rw [hsplit']
    simp only [List.mem_append, List.mem_cons] at hc ⊢
    rcases hc with hc | hc | hc
    exacts [.inl (.inl hc), absurd hc hne, .inr hc]
  · rwa [(h.row_of_ne hlt hcollector hx hp hmem).1]

include hs

/-- The names that are added bring nothing. -/
theorem events_collector (hlt : collector < s.size)
    (hbelow : ∀ c ∈ s.children collector, s'.events keep c = s.events keep c) :
    s'.events keep collector = s.events keep collector := by
  obtain ⟨news, hrow, hnews, -⟩ := h.collects.row
  have hnone : news.flatMap (s'.events keep) = [] := by
    refine List.flatMap_eq_nil_iff.mpr fun d hd => ?_
    obtain ⟨hblank, -⟩ := hnews d hd
    refine h.collects.forest.events_of_idle hblank.kind_eq ?_
    rw [child?, hblank.children_eq]
    rfl
  refine h.collects.touches.events_of_row hs.forest h.collects.forest hlt
    (by rw [hs.collector_kind]; rfl) ?_
  rw [hrow, List.flatMap_append, List.flatMap_congr hbelow, hnone, List.append_nil]

/-- What has come to the place of the list brings what the list brought. -/
theorem events_place (hfresh : s.Fresh keep) (hkeep : keep (.list list) = false)
    (hbelow : ∀ x, s.Within x p → x ≠ p → x ≠ list → x ∉ s.children list →
      s'.events keep x = s.events keep x) : s'.events keep p = s.events keep p := by
  obtain ⟨items, assigns, hplace⟩ := h.supplants
  obtain ⟨before, behind, hsplit, hsplit'⟩ := hplace.row
  have hf := hs.forest
  have hother : ∀ c ∈ before ++ behind, s'.events keep c = s.events keep c := by
    intro c hc
    obtain ⟨hmem, hne⟩ := hf.mem_of_split hsplit hc
    refine hbelow c (within_of_parent (hf.parent?_of_mem hmem)) (hf.ne_of_mem hmem) hne fun hbad => ?_
    have hlink := hf.parent?_of_mem hbad
    rw [hf.parent?_of_mem hmem, Option.some_inj] at hlink
    exact hs.place (hlink ▸ hs.list_kind)
  -- The assignments bring what the declarations with initializers brought.
  have hassigns : assigns.flatMap (s'.events keep) = s.events keep list := by
    rw [hf.events_list hs.list_kind, List.filter_singleton, hkeep, cond_false, List.nil_append,
      ← hf.flatMap_events_filter hs.declarations]
    refine flatMap_eq_of_forall₂ hplace.turned fun d hd a ha => ?_
    have hmem := List.mem_of_mem_filter hd
    have hlink := hf.parent?_of_mem hmem
    refine ha.events_eq h.collects.touches hf h.collects.forest (hs.declarations d hmem) hfresh ?_
    intro c hc
    have hlink' := hf.parent?_of_mem hc
    obtain ⟨hkind, hkind'⟩ := hs.parts d hmem c hc
    refine hbelow c ?_ ?_ ?_ fun hbad => hkind' (hs.declarations c hbad)
    · exact (within_of_parent hlink').trans
        ((within_of_parent hlink).trans (within_of_parent hs.link))
    · rintro rfl
      exact hf.acyclic _ _ hlink' ((within_of_parent hlink).trans (within_of_parent hs.link))
    · rintro rfl
      exact hkind hs.list_kind
  refine h.collects.touches.events_of_row hf h.collects.forest (hf.parent_lt hs.link) hs.goes ?_
  rw [hsplit, hsplit']
  simp only [List.flatMap_append, List.flatMap_cons, hplace.events keep hfresh, hassigns]
  rw [List.flatMap_congr fun c hc => hother c (List.mem_append_left _ hc),
    List.flatMap_congr fun c hc => hother c (List.mem_append_right _ hc), List.append_assoc]

/-- The patterns of clauses are found where they were. -/
theorem clause_eq (hsupplied : s.Supplied) (hit : isIterator s list = false) {x : NodeId}
    (hx : x < s.size) {role : Role} (hrole : (s.kind x).bindingRole? = some role) :
    s'.child? x role = s.child? x role := by
  have hcollector : x ≠ collector := by
    rintro rfl
    simp [hs.collector_kind, Kind.bindingRole?] at hrole
  have hlist : x ≠ list := by
    rintro rfl
    simp [hs.list_kind, Kind.bindingRole?] at hrole
  have hmem : x ∉ s.children list := by
    intro hmem
    simp [hs.declarations x hmem, Kind.bindingRole?] at hrole
  by_cases hp : x = p
  · subst hp
    obtain ⟨items, assigns, hplace⟩ := h.supplants
    obtain ⟨before, behind, hsplit, hsplit'⟩ := hplace.row
    have hlistmem : list ∈ s.children x := (hs.forest.linked _ _).mpr hs.link
    -- The list is not a pattern.
    have hnot : s.role? list ≠ some role := by
      intro heq
      revert hrole
      cases hkind : s.kind x <;> intro hrole <;> cases hrole
      case catchClause =>
        have hpattern := (hsupplied.sound.formed x).patterns list hlistmem (by
          rw [Head.binds, show (s.head x).kind = .catchClause from hkind]
          exact beq_iff_eq.mpr heq)
        have hin := hpattern.inner_kind hsupplied.sound hs.forest list (by
          rw [hs.forest.inner_eq]
          exact List.mem_cons_self)
        rw [hs.list_kind] at hin
        cases hin
      case forIn =>
        rw [isIterator, heq] at hit
        cases hit
    have hfind : ∀ {ids : List NodeId}, ids ⊆ before ++ behind →
        ids.find? (fun c => s'.role? c == some role) = ids.find? fun c => s.role? c == some role := by
      intro ids hids
      refine List.find?_congr fun c hc => ?_
      obtain ⟨hmem, hne⟩ := hs.forest.mem_of_split hsplit (hids hc)
      rw [hplace.roles c hmem hne]
    have hitems : items.find? (fun c => s'.role? c == some role) = none := by
      refine List.find?_eq_none.mpr fun c hc => ?_
      rw [(hplace.news c hc).2, beq_iff_eq]
      exact hnot
    rw [child?, child?, hsplit, hsplit', List.find?_append, List.find?_append, List.find?_append,
      List.find?_cons, beq_false_of_ne hnot, hitems, Option.or_none,
      hfind (List.subset_append_left _ _), hfind (List.subset_append_right _ _)]
  · exact (h.row_of_ne hx hcollector hlist hp hmem).2 role

/-- The other lists keep declarations with names. -/
theorem named_of_mem (hsupplied : s.Supplied) {x y d : NodeId} (hx : s'.parent? x = some y)
    (hkind : s'.kind x = .varList) (hd : d ∈ s'.children x) : s'.Named d := by
  have ht := h.collects.touches
  have hlt : x < s.size := ht.lt_of_not_isMade (lt_of_kind (by simp [hkind])) (by rw [hkind]; rfl)
  rw [ht.kind_eq hlt] at hkind
  obtain ⟨q, hq⟩ := ht.exists_parent hx hlt
  have hne : x ≠ list := by
    rintro rfl
    rw [h.gone] at hx
    cases hx
  have hold : d ∈ s.children x → s'.Named d := by
    intro hmem
    have hkindd := hsupplied.declaration_of_mem hkind hmem
    have hlink := hs.forest.parent?_of_mem hmem
    refine ((hsupplied.ample.filled hq).named hkind d hmem).touches ht ?_
    rintro ((rfl | hD) | rfl | rfl)
    · simp [hs.collector_kind] at hkindd
    · rw [hs.forest.parent?_of_mem hD, Option.some_inj] at hlink
      exact hne hlink.symm
    · simp [hs.list_kind] at hkindd
    · have hgoes := hs.goes
      rw [hkindd] at hgoes
      cases hgoes
  by_cases hcollector : x = collector
  · subst hcollector
    obtain ⟨news, hrow, hnews, -⟩ := h.collects.row
    rw [hrow, List.mem_append] at hd
    refine hd.elim hold fun hd => ?_
    obtain ⟨hblank, name, -, htext⟩ := hnews d hd
    exact ⟨hblank.kind_eq, .inl (by simp [htext])⟩
  · refine hold ?_
    rwa [ht.row x hlt ?_] at hd
    rintro ((hD | hD) | hD | rfl)
    exacts [hcollector hD, absurd (hs.declarations x hD) (by simp [hkind]), hne hD, hs.place hkind]

/-- What comes into a list of statements is no iterator of a loop. -/
theorem joins (hsupplied : s.Supplied) {x y : NodeId} (hx : s'.parent? x = some y) :
    s'.Joins x y := by
  intro hlist hne
  have ht := h.collects.touches
  have hy : y < s.size := ht.lt_of_not_isMade (h.collects.forest.parent_lt hx) <| by
    revert hlist
    cases s'.kind y <;> simp [Kind.isStatementList, Kind.isMade]
  rw [ht.kind_eq hy] at hlist
  have hmem := (h.collects.forest.linked y x).mpr hx
  -- A node that has been there is what it was.
  have hold : x ∈ s.children y → s'.role? x = s.role? x → s'.role? x ≠ some .iterator := by
    intro hmem hrole
    rw [ht.kind_eq (hs.forest.child_lt hmem)] at hne
    rw [hrole]
    exact hsupplied.ample.listed (hs.forest.parent?_of_mem hmem) hlist hne
  by_cases hp : y = p
  · subst hp
    obtain ⟨items, assigns, hplace⟩ := h.supplants
    obtain ⟨before, behind, hsplit, hsplit'⟩ := hplace.row
    have hother : x ∈ before ++ behind → s'.role? x ≠ some .iterator := fun hx => by
      obtain ⟨hmem, hne⟩ := hs.forest.mem_of_split hsplit hx
      exact hold hmem (hplace.roles x hmem hne)
    simp only [hsplit', List.mem_append] at hmem hother
    rcases hmem with (hmem | hmem) | hmem
    · exact hother (.inl hmem)
    · rw [(hplace.news x hmem).2]
      exact hsupplied.ample.listed hs.link hlist (by simp [hs.list_kind])
    · exact hother (.inr hmem)
  · have hoff := hs.not_touched (x := y) (by rintro heq; simp [heq, Kind.isStatementList] at hlist)
      (by rintro heq; simp [heq, Kind.isStatementList] at hlist) hp
    rw [ht.row y hy hoff] at hmem
    exact hold hmem (ht.role y hy hoff x hmem)

/-- Everything has what it needs where a list has been dissolved. -/
theorem ample (hsupplied : s.Supplied) : s'.Ample := by
  have ht := h.collects.touches
  refine ⟨h.collects.forest.toLinked, ?_, fun {x y} hx => ⟨fun hkind => ?_, fun hkind d hd => ?_⟩,
    fun {x y} hx => h.joins hs hsupplied hx⟩
  · rw [ht.root_eq, ht.kind_eq hs.forest.root_lt, hsupplied.ample.root_kind]
  · have hlt : x < s.size := ht.lt_of_not_isMade (lt_of_kind (by simp [hkind])) (by rw [hkind]; rfl)
    rw [ht.kind_eq hlt] at hkind
    obtain ⟨q, hq⟩ := ht.exists_parent hx hlt
    rw [ht.row x hlt (hs.not_touched (by simp [hkind]) (by simp [hkind]) ?_)]
    · exact (hsupplied.ample.filled hq).parts hkind
    · rintro rfl
      have hspare := hsupplied.spare_list hs.list_kind x hs.link
      simp [hkind] at hspare
  · exact h.named_of_mem hs hsupplied hx hkind hd

/-- The step of a combination that dissolves a list. -/
theorem combines (hsupplied : s.Supplied) (hlist : s.Inside b list)
    (hit : isIterator s list = false) (hcollector : s.Inside b collector)
    (hit' : isIterator s collector = false) : Combines b (· = list) s s' where
  forest := h.collects.forest
  touches := by
    refine h.collects.touches.loosen.mono ?_ fun _ _ _ hx => hx
    rintro x - ((rfl | hx) | rfl | rfl)
    · exact hsupplied.touchable_list hcollector hs.collector_kind hit'
    · exact hsupplied.touchable_mem hlist hs.list_kind hit hx
    · exact hsupplied.touchable_list hlist hs.list_kind hit
    · exact hsupplied.touchable_place hlist hs.list_kind hs.link
  held c hc := by
    cases hlink : s.parent? c with
    | none => exact .inl (h.collects.touches.loose c hc not_false hlink)
    | some q =>
        have hmem := (hs.forest.linked q c).mpr hlink
        by_cases hclist : c = list
        · subst hclist
          exact .inr ⟨hlist, hsupplied.not_inIterator_of_list hs.list_kind hit,
            by simp [hs.list_kind]⟩
        by_cases hq : q = list
        · subst hq
          refine .inr ⟨.step hlist (by simp [hs.list_kind]) hmem, ?_, fun _ => ⟨q, hlink, hs.list_kind⟩⟩
          exact hsupplied.not_inIterator_of_mem hs.list_kind hit hmem
        by_cases hqmem : q ∈ s.children list
        · have hinside := hlist.step (by simp [hs.list_kind]) hqmem
          obtain ⟨hkind, hkind'⟩ := hs.parts q hqmem c hmem
          refine .inr ⟨hinside.step (by simp [hs.declarations q hqmem]) hmem, ?_,
            fun heq => absurd heq hkind'⟩
          exact hsupplied.not_inIterator_of_parent hlink
            (hsupplied.not_inIterator_of_mem hs.list_kind hit hqmem) hkind
        exact .inl (h.collects.forest.parent?_of_mem (h.mem_of_mem hq hqmem hmem hclist))
  stay x hx hkind hkind' c hc hckind := by
    have hxlist : x ≠ list := fun heq => hkind (heq ▸ hs.list_kind)
    have hxmem : x ∉ s.children list := fun hmem => hkind' (hs.declarations x hmem)
    have hne : c ≠ list := fun heq => hckind (heq ▸ hs.list_kind)
    refine ⟨h.mem_of_mem hxlist hxmem hc hne, ?_⟩
    by_cases hp : x = p
    · obtain ⟨items, assigns, hplace⟩ := h.supplants
      exact hplace.roles c (hp ▸ hc) hne
    · refine h.collects.touches.role x hx ?_ c hc
      rintro ((hD | hD) | hD | hD)
      exacts [hkind (hD ▸ hs.collector_kind), hxmem hD, hxlist hD, hp hD]
  clause x hx role hrole := h.clause_eq hs hsupplied hit hx hrole
  plain l hkind hitl hl hl' := by
    obtain ⟨q, hlink, -⟩ := hl.parent hs.forest.toLinked
    have hmem := (hs.forest.linked q l).mpr hlink
    have hne : l ≠ list := by
      rintro rfl
      obtain ⟨q', hq', -⟩ := hl'.parent h.collects.forest.toLinked
      rw [h.gone] at hq'
      cases hq'
    rw [isIterator] at hitl ⊢
    by_cases hp : q = p
    · obtain ⟨items, assigns, hplace⟩ := h.supplants
      rwa [hplace.roles l (hp ▸ hmem) hne]
    · rwa [h.collects.touches.role q (hs.forest.parent_lt hlink) ?_ l hmem]
      obtain ⟨-, hq⟩ := hsupplied.place_of_list hkind hlink
      rintro ((hD | hD) | hD | hD)
      · exact hq (hD ▸ hs.collector_kind)
      · exact (hs.parts q hD l hmem).1 hkind
      · exact hq (hD ▸ hs.list_kind)
      · exact hp hD
  changed r hr := by
    subst hr
    have hlt := parent?_lt hs.link
    refine changed_of_gone h.collects.forest.toLinked ?_ hit h.gone
    rw [h.collects.touches.kind_eq hlt, hs.list_kind]
  events keep hstable hkeep y hy hkind := by
    refine h.collects.touches.events_eq (T := fun x => x = list ∨ x ∈ s.children list) hs.forest
      h.collects.forest ?_ ?_ hy ?_
    · rintro x z (rfl | hx) hlink
      · rw [hs.link, Option.some_inj] at hlink
        exact .inl (.inr (.inr hlink.symm))
      · rw [hs.forest.parent?_of_mem hx, Option.some_inj] at hlink
        exact .inr (.inl hlink.symm)
    · rintro z hz ((rfl | hD) | hD | rfl) hT hbelow
      · refine h.events_collector hs hz fun c hc => hbelow c
          (within_of_parent (hs.forest.parent?_of_mem hc)) (hs.forest.ne_of_mem hc) ?_
        rintro (rfl | hmem)
        · have hkind := hsupplied.declaration_of_mem hs.collector_kind hc
          rw [hs.list_kind] at hkind
          cases hkind
        · have hlink := hs.forest.parent?_of_mem hmem
          rw [hs.forest.parent?_of_mem hc, Option.some_inj] at hlink
          exact hs.ne hlink.symm
      · exact absurd (.inr hD) hT
      · exact absurd (.inl hD) hT
      · refine h.events_place hs hstable.fresh (hkeep list rfl) fun x hx hne hlist hmem =>
          hbelow x hx hne ?_
        exact not_or.mpr ⟨hlist, hmem⟩
    · rintro (rfl | hmem)
      · rw [hs.list_kind] at hkind
        cases hkind
      · rw [hs.declarations y hmem] at hkind
        cases hkind

/-- The other lists keep their declarations. -/
theorem spares (hsupplied : s.Supplied) {l : NodeId} (hl : s.kind l = .varList) (hne : l ≠ list) :
    Spares l s s' := by
  refine spares_of_touches h.collects.touches hsupplied h.collects.forest hl fun x _ hx => ?_
  have hplace := hsupplied.ordered.not_isOperation hs.link (isExpression_of_list hs.list_kind)
  have hgoes := hs.goes
  rcases hx with hx | hx
  · have hkind := hsupplied.declaration_of_mem hl hx
    rintro ((rfl | hD) | rfl | rfl)
    · simp [hs.collector_kind] at hkind
    · have hlink := hs.forest.parent?_of_mem hx
      rw [hs.forest.parent?_of_mem hD, Option.some_inj] at hlink
      exact hne hlink.symm
    · simp [hs.list_kind] at hkind
    · rw [hkind] at hgoes
      cases hgoes
  · rintro ((rfl | hD) | rfl | rfl)
    · rw [hs.collector_kind] at hx
      cases hx
    · rw [hs.declarations x hD] at hx
      cases hx
    · rw [hs.list_kind] at hx
      cases hx
    · rw [Kind.isOperation_of_inPattern hx] at hplace
      cases hplace

/-- The collector declares what the dissolved list has declared. -/
theorem mem_collector (hsupplied : s.Supplied) {x : String}
    (hdeclared : ∀ x ∈ declared, x ∈ listNames s collector) :
    x ∈ listNames s' collector ↔ x ∈ listNames s collector ∨ x ∈ listNames s list := by
  obtain ⟨news, hrow, hnews, hcover⟩ := h.collects.row
  have hold : (s.children collector).flatMap (namesOf s') = listNames s collector :=
    List.flatMap_congr (h.spares hs hsupplied hs.collector_kind hs.ne.symm).names
  rw [listNames, hrow, List.flatMap_append, hold, List.mem_append, List.mem_flatMap]
  constructor
  · refine Or.imp_right ?_
    rintro ⟨d, hd, hx⟩
    obtain ⟨hblank, y, hy, htext⟩ := hnews d hd
    rw [hblank.namesOf_eq htext, List.mem_singleton] at hx
    exact hx ▸ hy
  · rintro (hx | hx)
    · exact .inl hx
    · rcases hcover x hx with hx | ⟨d, hd, htext⟩
      · exact .inl (hdeclared x hx)
      · refine .inr ⟨d, hd, ?_⟩
        rw [(hnews d hd).1.namesOf_eq htext]
        exact List.mem_singleton_self x

/-- What is declared is declared in the collector. -/
theorem declared_subset (hsupplied : s.Supplied)
    (hdeclared : ∀ x ∈ declared, x ∈ listNames s collector) :
    ∀ x ∈ declared', x ∈ listNames s' collector := fun x hx =>
  (h.mem_collector hs hsupplied hdeclared).mpr
    (((h.collects.declared x).mp hx).imp (hdeclared x) id)

/-- The lists of the body declare what they have declared. -/
theorem lists_iff (hsupplied : s.Supplied) {x : String}
    (hdeclared : ∀ x ∈ declared, x ∈ listNames s collector) (hcollector : collector ∈ s.lists b)
    (hlist : list ∈ s.lists b) (hlists : s'.lists b = (s.lists b).filter (· ≠ list)) :
    Lists s' b x ↔ Lists s b x := by
  refine lists_iff_of_gone hlists hlist hcollector hs.ne (fun l hl hne hcollector => ?_)
    (h.mem_collector hs hsupplied hdeclared)
  have hkind := (hs.forest.mem_lists.mp hl).2
  refine (h.spares hs hsupplied hkind hne).listNames_eq ?_
  refine (h.row_of_ne (lt_of_kind (by simp [hkind])) hcollector hne ?_ fun hmem => ?_).1
  · rintro rfl
    exact hs.place hkind
  · rw [hs.declarations l hmem] at hkind
    cases hkind

end Dissolves

/-! ### Several lists are dissolved -/

theorem supplied_assignList (h : s.Supplied) (hs : s.Standing collector list p) :
    Gives (assignList collector declared list) s fun declared' s' =>
      Dissolves collector list p declared declared' s s' ∧ s'.Supplied := by
  refine ((dissolves_assignList hs h.sound).and
    (Gives.and (keeps_assignList h.sound hs.list_kind hs.collector_kind)
      (keepsOrder_assignList h.ordered hs.list_kind hs.collector_kind))).mono ?_
  rintro declared' s' ⟨hgives, hsound, hordered, -⟩
  have hdissolves := hgives hordered.toForest
  exact ⟨hdissolves, hsound.sound, hordered, hdissolves.ample hs h⟩

theorem combines_assignLists {lists : List NodeId} (h : s.Supplied) (hb : b < s.size)
    (hbody : s.kind b = .script) (hcollector : collector ∈ s.lists b)
    (hit : isIterator s collector = false)
    (hlists : ∀ l ∈ lists, l ∈ s.lists b ∧ isIterator s l = false ∧ l ≠ collector)
    (hnodup : lists.Nodup) (hdeclared : ∀ x ∈ declared, x ∈ listNames s collector) :
    Gives (assignLists collector lists declared) s fun _ s' =>
      Combines b (· ∈ lists) s s' ∧ s'.Supplied ∧ ∀ x, Lists s' b x ↔ Lists s b x := by
  induction lists generalizing s declared with
  | nil =>
      exact ⟨(Combines.refl h.ordered.toForest b).mono (by simp) (by simp), h, fun _ => Iff.rfl⟩
  | cons list rest ih =>
      obtain ⟨⟨hlist, hitl, hne⟩, hrest⟩ := List.forall_mem_cons.mp hlists
      obtain ⟨hnot, hnodup⟩ := List.nodup_cons.mp hnodup
      have hf := h.ordered.toForest
      obtain ⟨hinside, hkind⟩ := hf.mem_lists.mp hlist
      obtain ⟨hinside', hkind'⟩ := hf.mem_lists.mp hcollector
      obtain ⟨p, hlink, -⟩ := hinside.parent hf.toLinked
      have hstanding := h.standing hkind' hkind hne hlink
      rw [assignLists, gives_bind]
      refine (supplied_assignList h hstanding).mono ?_
      · rintro declared' s₁ ⟨hdissolves, h₁⟩
        have hcombines := hdissolves.combines hstanding h hinside hitl hinside' hit
        have hlists₁ := hcombines.lists_eq_of_gone h.sound hf h₁.sound hb hbody (parent?_lt hlink)
        have hmem : ∀ {l}, l ∈ s.lists b → l ≠ list → l ∈ s₁.lists b := fun hl hne => by
          rw [hlists₁, List.mem_filter]
          exact ⟨hl, by simpa using hne⟩
        have hsame : ∀ {l}, l ∈ s.lists b → l ≠ list → isIterator s₁ l = isIterator s l :=
          fun hl hne => hcombines.isIterator_eq hf hl (hmem hl hne)
        have hcollector₁ := hmem hcollector (Ne.symm hne)
        refine (ih h₁ (hcombines.lt hb) ((hcombines.kind_eq hb).trans hbody) hcollector₁
          ((hsame hcollector (Ne.symm hne)).trans hit) (fun l hl => ?_) hnodup ?_).mono ?_
        · obtain ⟨hl', hitl', hne'⟩ := hrest l hl
          have hother : l ≠ list := by
            rintro rfl
            exact hnot hl
          exact ⟨hmem hl' hother, (hsame hl' hother).trans hitl', hne'⟩
        · exact hdissolves.declared_subset hstanding h hdeclared
        · rintro _ s₂ ⟨h₂, hs₂, hnames⟩
          have htrans := hcombines.trans h₂ hf.toLinked
          refine ⟨htrans.mono (fun r hr => ?_) fun r hr => ?_, hs₂, fun x => (hnames x).trans ?_⟩
          · exact List.mem_cons.mpr hr
          · exact htrans.changed r (List.mem_cons.mp hr)
          · exact hdissolves.lists_iff hstanding h hdeclared hcollector hlist hlists₁

/-! ### Neighbours are merged -/

/-- What an edit gives that merges a list with the one before it in a list of statements. -/
structure Merges (q previous current : NodeId) (before behind : List NodeId) (s s' : Store) :
    Prop where
  forest : s'.Forest
  touches : Touches True (fun x => x = previous ∨ x = current ∨ x = q) (fun _ => False) s s'
  parent_eq : ∀ x, s'.parent? x =
    if x = current then none else if x ∈ s.children current then some previous else s.parent? x
  role_eq : ∀ x, x ≠ current → s'.role? x = s.role? x
  row_place : s'.children q = before ++ previous :: behind
  row_previous : s'.children previous = s.children previous ++ s.children current

/-- Two nodes stand next to each other in a list of statements. -/
structure Adjacent (s : Store) (q x y : NodeId) (before behind : List NodeId) : Prop where
  statements : (s.kind q).isStatementList
  row : s.children q = before ++ x :: y :: behind

namespace Adjacent

variable {q x y : NodeId} {before behind : List NodeId} (h : Adjacent s q x y before behind)
include h

theorem links (hf : s.Forest) : s.parent? x = some q ∧ s.parent? y = some q :=
  ⟨hf.parent?_of_mem (by simp [h.row]), hf.parent?_of_mem (by simp [h.row])⟩

theorem ne (hf : s.Forest) : x ≠ y := by
  have hnodup := h.row ▸ hf.nodup q
  rintro rfl
  simp [List.nodup_append] at hnodup

theorem kind_ne : s.kind q ≠ .function ∧ s.kind q ≠ .varList ∧ s.kind q ≠ .declaration ∧
    (s.kind q).goesOn ∧ (s.kind q).bindingRole? = none := by
  have hq := h.statements
  revert hq
  cases s.kind q <;> simp [Kind.isStatementList, Kind.goesOn, Kind.bindingRole?]

theorem isOperation_eq_false : (s.kind q).isOperation = false := by
  have hq := h.statements
  revert hq
  cases s.kind q <;> simp [Kind.isStatementList, Kind.isOperation, Kind.isStatement]

theorem inPattern_eq_false : (s.kind q).inPattern = false := by
  have hoperation := h.isOperation_eq_false
  rw [Bool.eq_false_iff] at hoperation ⊢
  exact fun hpattern => hoperation (Kind.isOperation_of_inPattern hpattern)

/-- The others in the list. -/
theorem others (hf : s.Forest) {c : NodeId} (hc : c ∈ before ++ behind) :
    c ∈ s.children q ∧ c ≠ x ∧ c ≠ y := by
  have hnodup := h.row ▸ hf.nodup q
  simp only [List.nodup_append, List.nodup_cons, List.mem_cons, not_or] at hnodup
  rw [h.row]
  rcases List.mem_append.mp hc with hc | hc
  · exact ⟨by simp [hc], hnodup.2.2 c hc x (.inl rfl), hnodup.2.2 c hc y (.inr (.inl rfl))⟩
  · refine ⟨by simp [hc], ?_, ?_⟩
    · rintro rfl
      exact hnodup.2.1.1.2 hc
    · rintro rfl
      exact hnodup.2.1.2.1 hc

end Adjacent

/-- Two lists of declarations are neighbours in a list of statements. -/
structure Neighbours (s : Store) (q previous current : NodeId) (before behind : List NodeId) :
    Prop extends Adjacent s q previous current before behind where
  previous : s.kind previous = .varList
  current : s.kind current = .varList

section Merge

variable {q previous current : NodeId} {before behind : List NodeId}

/-- The lists of a list of statements are no iterators. -/
theorem not_isIterator_of_statement (h : s.Supplied) (hlink : s.parent? list = some q)
    (hq : (s.kind q).isStatementList) (hkind : s.kind list = .varList) :
    isIterator s list = false := by
  have hrole := h.ample.listed hlink hq (by simp [hkind])
  rw [isIterator]
  exact beq_false_of_ne hrole

namespace Neighbours

variable (hn : Neighbours s q previous current before behind)
include hn

theorem place_ne : q ≠ previous ∧ q ≠ current := by
  obtain ⟨-, hlist, -⟩ := hn.kind_ne
  constructor
  · rintro rfl
    exact hlist hn.previous
  · rintro rfl
    exact hlist hn.current

theorem mem_lists (hf : s.Forest) (hinside : q = b ∨ s.Inside b q) :
    previous ∈ s.lists b ∧ current ∈ s.lists b := by
  obtain ⟨hlink, hlink'⟩ := hn.links hf
  have hbelow : ∀ {x}, s.parent? x = some q → s.Inside b x := by
    intro x hx
    have hmem := (hf.linked q x).mpr hx
    rcases hinside with rfl | hinside
    · exact .child hmem
    · exact hinside.step hn.kind_ne.1 hmem
  exact ⟨hf.mem_lists.mpr ⟨hbelow hlink, hn.previous⟩, hf.mem_lists.mpr ⟨hbelow hlink', hn.current⟩⟩

theorem merges (hf : s.Forest) :
    Merges q previous current before behind s ((s.moveChildren current previous).remove current) := by
  obtain ⟨hlink, hlink'⟩ := hn.links hf
  have hne := hn.ne hf
  have hlt : previous < s.size := parent?_lt hlink
  have hoff : ¬ s.Within previous current := by
    intro hwithin
    rcases hwithin.cases with heq | ⟨p, hp, hwithin⟩
    · exact hne heq
    · rw [hlink, Option.some_inj] at hp
      exact hf.acyclic _ _ hlink' (hp ▸ hwithin)
  have hmoved := hf.moveChildren hlt hoff
  have hmovedparent : ∀ x, (s.moveChildren current previous).parent? x =
      if x ∈ s.children current then some previous else s.parent? x := fun x =>
    parent?_moveChildren fun c hc => hf.child_lt hc
  have hrow : ∀ x, ((s.moveChildren current previous).remove current).children x =
      ((if x = previous then s.children previous ++ s.children current
        else if x = current then [] else s.children x)).filter (· ≠ current) := by
    intro x
    rw [hmoved.toLinked.children_remove, children_moveChildren hlt]
    by_cases hx : x = previous
    · rw [if_pos hx, if_pos hx, hx, if_neg hne]
    · rw [if_neg hx, if_neg hx]
  have hkeep : ∀ x, x ≠ q → (s.children x).filter (· ≠ current) = s.children x := by
    refine fun x hx => List.filter_eq_self.mpr fun c hc => decide_eq_true ?_
    rintro rfl
    rw [hf.parent?_of_mem hc, Option.some_inj] at hlink'
    exact hx hlink'
  refine ⟨hmoved.remove, ?_, fun x => by rw [parent?_remove, hmovedparent], fun x hx => ?_, ?_, ?_⟩
  · refine ((touches_moveChildren hf.toLinked hlt hn.previous).trans
      (touches_remove hmoved.toLinked)).mono ?_ (by simp)
    rintro x - ((hx | hx) | hx | hx)
    · exact .inr (.inl hx)
    · exact .inl hx
    · rw [hmovedparent, if_neg fun hbad => hf.ne_of_mem hbad rfl, hlink', Option.some_inj] at hx
      exact .inr (.inr hx.symm)
    · exact .inr (.inl hx.2)
  · rw [role?_remove hx, role?, head_moveChildren]
    rfl
  · have hfilter := filter_ne_append
      (show ((before ++ [previous]) ++ current :: behind).Nodup by
        simpa [hn.row] using hf.nodup q)
    rw [hrow, if_neg hn.place_ne.1, if_neg hn.place_ne.2, hn.row]
    simpa using hfilter
  · rw [hrow, if_pos rfl, List.filter_append, hkeep previous hn.place_ne.1.symm,
      hkeep current hn.place_ne.2.symm]

end Neighbours

namespace Merges

variable (hm : Merges q previous current before behind s s')
  (hn : Neighbours s q previous current before behind)
include hm

theorem row_of_ne {x : NodeId} (hx : x < s.size) (hp : x ≠ previous) (hc : x ≠ current) (hq : x ≠ q) :
    s'.children x = s.children x := by
  refine hm.touches.row x hx ?_
  rintro (hD | hD | hD)
  exacts [hp hD, hc hD, hq hD]

include hn

/-- The place of the lists brings what it brought, but for the list that has gone. -/
theorem events_place (h : s.Supplied) (hkeep : keep (.list current) = false)
    (hsame : ∀ x, s.Within x q → x ≠ q → ¬ (x = previous ∨ x = current) →
      s'.events keep x = s.events keep x) : s'.events keep q = s.events keep q := by
  have hf := h.ordered.toForest
  obtain ⟨hlink, hlink'⟩ := hn.links hf
  have hdeclarations : ∀ {l}, s.kind l = .varList → s.parent? l = some q →
      (s.children l).flatMap (s'.events keep) = (s.children l).flatMap (s.events keep) := by
    intro l hkind hl
    refine List.flatMap_congr fun d hd => ?_
    have hkindd := h.declaration_of_mem hkind hd
    have hlinkd := within_of_parent (hf.parent?_of_mem hd)
    refine hsame d (hlinkd.trans (within_of_parent hl)) ?_ ?_
    · rintro rfl
      exact hn.kind_ne.2.2.1 hkindd
    · rintro (rfl | rfl)
      · rw [hn.previous] at hkindd
        cases hkindd
      · rw [hn.current] at hkindd
        cases hkindd
  have hother : ∀ c ∈ before ++ behind, s'.events keep c = s.events keep c := by
    intro c hc
    obtain ⟨hmem, hprevious, hcurrent⟩ := hn.others hf hc
    exact hsame c (within_of_parent (hf.parent?_of_mem hmem)) (hf.ne_of_mem hmem)
      (not_or.mpr ⟨hprevious, hcurrent⟩)
  have hlist : s'.events keep previous = s.events keep previous ++ s.events keep current := by
    have hkind : s'.kind previous = .varList := by
      rw [hm.touches.kind_eq (parent?_lt hlink), hn.previous]
    rw [hm.forest.events_list hkind, hf.events_list hn.previous, hf.events_list hn.current,
      hm.row_previous, List.flatMap_append, hdeclarations hn.previous hlink,
      hdeclarations hn.current hlink', List.filter_singleton, List.filter_singleton, hkeep,
      cond_false, List.nil_append, List.append_assoc]
  refine hm.touches.events_of_row hf hm.forest (hf.parent_lt hlink) hn.kind_ne.2.2.2.1 ?_
  rw [hm.row_place, hn.row]
  simp only [List.flatMap_append, List.flatMap_cons, hlist, List.append_assoc]
  rw [List.flatMap_congr fun c hc => hother c (List.mem_append_left _ hc),
    List.flatMap_congr fun c hc => hother c (List.mem_append_right _ hc)]

/-- The step of a combination that merges two lists. -/
theorem combines (h : s.Supplied) (hinside : q = b ∨ s.Inside b q) : Combines b (· = current) s s' := by
  have hf := h.ordered.toForest
  obtain ⟨hlink, hlink'⟩ := hn.links hf
  obtain ⟨hfunction, hqlist, hqdeclaration, -, hbinding⟩ := hn.kind_ne
  obtain ⟨hprevious, hcurrent⟩ := hn.mem_lists hf hinside
  have hit := not_isIterator_of_statement h hlink hn.statements hn.previous
  have hit' := not_isIterator_of_statement h hlink' hn.statements hn.current
  have hcurrentne : ∀ {c}, s.kind c ≠ .varList → c ≠ current := by
    rintro c hc rfl
    exact hc hn.current
  refine ⟨hm.forest, hm.touches.mono ?_ fun _ _ _ hx => hx, fun c hc => ?_,
    fun x hx hlist _ c hc hckind => ?_, fun x hx role hrole => ?_, fun l hl hitl _ hinside' => ?_, ?_,
    fun keep _ hkeep y hy hkind => ?_⟩
  · rintro x - (rfl | rfl | rfl)
    · exact h.touchable_list (hf.mem_lists.mp hprevious).1 hn.previous hit
    · exact h.touchable_list (hf.mem_lists.mp hcurrent).1 hn.current hit'
    · exact h.touchable_place (hf.mem_lists.mp hprevious).1 hn.previous hlink
  · rw [hm.parent_eq]
    split
    case isTrue heq =>
        exact .inr ⟨heq ▸ (hf.mem_lists.mp hcurrent).1, heq ▸ h.not_inIterator_of_list hn.current hit',
          by simp [heq, hn.current]⟩
    case isFalse =>
        split
        case isTrue hmemc =>
            refine .inr ⟨(hf.mem_lists.mp hcurrent).1.step (by simp [hn.current]) hmemc, ?_,
              fun _ => ⟨_, hf.parent?_of_mem hmemc, hn.current⟩⟩
            exact h.not_inIterator_of_mem hn.current hit' hmemc
        case isFalse => exact .inl rfl
  · refine ⟨?_, hm.role_eq c (hcurrentne hckind)⟩
    by_cases hxq : x = q
    · have hne := hcurrentne hckind
      rw [hxq, hn.row] at hc
      rw [hxq, hm.row_place]
      simp only [List.mem_append, List.mem_cons] at hc ⊢
      tauto
    · rw [hm.row_of_ne hx (fun heq => hlist (heq ▸ hn.previous)) (fun heq => hlist (heq ▸ hn.current))
        hxq]
      exact hc
  · refine hm.touches.child?_eq hx ?_ role
    rintro (rfl | rfl | rfl)
    · simp [hn.previous, Kind.bindingRole?] at hrole
    · simp [hn.current, Kind.bindingRole?] at hrole
    · rw [hbinding] at hrole
      cases hrole
  · have hne : l ≠ current := by
      rintro rfl
      obtain ⟨p, hp, -⟩ := hinside'.parent hm.forest.toLinked
      rw [hm.parent_eq, if_pos rfl] at hp
      cases hp
    rw [isIterator, hm.role_eq l hne]
    exact hitl
  · rintro r rfl
    refine changed_of_gone hm.forest.toLinked ?_ hit' (by rw [hm.parent_eq, if_pos rfl])
    rw [hm.touches.kind_eq (parent?_lt hlink'), hn.current]
  · refine hm.touches.events_eq (T := fun x => x = previous ∨ x = current) hf hm.forest ?_ ?_ hy ?_
    · rintro x z (rfl | rfl) hz
      · exact .inl (.inr (.inr (Option.some_inj.mp (hz.symm.trans hlink))))
      · exact .inl (.inr (.inr (Option.some_inj.mp (hz.symm.trans hlink'))))
    · rintro z hz (hD | hD | rfl) hT hsame
      · exact absurd (.inl hD) hT
      · exact absurd (.inr hD) hT
      · exact hm.events_place hn h (hkeep current rfl) hsame
    · rintro (rfl | rfl)
      · rw [hn.previous] at hkind
        cases hkind
      · rw [hn.current] at hkind
        cases hkind

omit hn in
/-- The declarations of all lists are what they were. -/
theorem spares (hn : Neighbours s q previous current before behind) (h : s.Supplied) {l : NodeId}
    (hl : s.kind l = .varList) : Spares l s s' := by
  refine spares_of_kinds hm.touches h hm.forest hl ?_
  rintro x (rfl | rfl | rfl)
  · simp [hn.previous, Kind.inPattern, Kind.isKey]
  · simp [hn.current, Kind.inPattern, Kind.isKey]
  · exact ⟨hn.kind_ne.2.2.1, hn.inPattern_eq_false⟩

/-- The lists of the body declare what they have declared. -/
theorem lists_iff (h : s.Supplied) (hlists : s'.lists b = (s.lists b).filter (· ≠ current))
    (hprevious : previous ∈ s.lists b) (hcurrent : current ∈ s.lists b) {x : String} :
    Lists s' b x ↔ Lists s b x := by
  have hf := h.ordered.toForest
  refine lists_iff_of_gone hlists hcurrent hprevious (hn.ne hf).symm (fun l hl hne hprevious => ?_) ?_
  · have hkind := (hf.mem_lists.mp hl).2
    refine (hm.spares hn h hkind).listNames_eq ?_
    refine hm.row_of_ne (lt_of_kind (by simp [hkind])) hprevious hne ?_
    rintro rfl
    exact hn.kind_ne.2.1 hkind
  · rw [listNames, hm.row_previous, List.flatMap_append, List.mem_append,
      List.flatMap_congr (hm.spares hn h hn.previous).names,
      List.flatMap_congr (hm.spares hn h hn.current).names]
    rfl

end Merges

end Merge

end Declarations

end ScriptMin
