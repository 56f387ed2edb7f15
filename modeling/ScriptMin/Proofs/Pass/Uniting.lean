import ScriptMin.Proofs.Pass.Agreement
import ScriptMin.Proofs.Pass.Gathering

/-!
Runs that combine the declarations of a body. Neighbouring lists are merged everywhere in the body,
and a list collects the names of all others.
Main statement: behind such a run no list is left to be combined.
-/

namespace ScriptMin

open Store Edit

namespace Declarations

variable {s s' s'' : Store} {b d q list previous current first : NodeId}
  {before behind rest others : List NodeId} {declared : NameSet} {R : NodeId → Prop}

/-- What an edit of a body gives. -/
structure Unites (b : NodeId) (s s' : Store) : Prop where
  combines : ∃ R, Combines b R s s'
  supplied : s'.Supplied
  names : ∀ x, Lists s' b x ↔ Lists s b x

namespace Unites

theorem refl (h : s.Supplied) (b : NodeId) : Unites b s s :=
  ⟨⟨_, .refl h.ordered.toForest b⟩, h, fun _ => Iff.rfl⟩

theorem trans (h : Unites b s s') (h' : Unites b s' s'') (hs : s.Linked) : Unites b s s'' := by
  obtain ⟨_, hcombines⟩ := h.combines
  obtain ⟨_, hcombines'⟩ := h'.combines
  exact ⟨⟨_, hcombines.trans hcombines' hs⟩, h'.supplied, fun x => (h'.names x).trans (h.names x)⟩

theorem lt (h : Unites b s s') {x : NodeId} (hx : x < s.size) : x < s'.size := by
  obtain ⟨_, hcombines⟩ := h.combines
  exact hcombines.lt hx

theorem kind_eq (h : Unites b s s') {x : NodeId} (hx : x < s.size) : s'.kind x = s.kind x := by
  obtain ⟨_, hcombines⟩ := h.combines
  exact hcombines.kind_eq hx

end Unites

/-- A list of statements of a body, where lists of declarations are merged. -/
structure StatementsOf (s : Store) (b q : NodeId) : Prop where
  inside : q = b ∨ s.Inside b q
  statements : (s.kind q).isStatementList

theorem StatementsOf.later (hq : StatementsOf s b q) (h : Unites b s s') (hs : s.Supplied)
    (hbody : s.kind b = .script) (hb : b < s.size) : StatementsOf s' b q := by
  obtain ⟨_, hcombines⟩ := h.combines
  have hf := hs.ordered.toForest
  refine ⟨hq.inside.imp_right fun hinside => hcombines.inside hs.sound hf hbody hinside ?_, ?_⟩
  · have hkind := hq.statements
    revert hkind
    cases s.kind q <;> simp [Kind.isStatementList, Kind.isMet, Kind.inPattern, Kind.isKey]
  · rw [h.kind_eq]
    · exact hq.statements
    · rcases hq.inside with rfl | hinside
      · exact hb
      · exact hinside.lt hf.toLinked

/-! ### Neighbours are merged -/

theorem supplied_merge (h : s.Supplied) (hn : Neighbours s q previous current before behind) :
    ((s.moveChildren current previous).remove current).Supplied := by
  have hf := h.ordered.toForest
  have hids : Siblings s q [previous, current] := by
    refine (siblings_children hf q).sublist ?_
    rw [hn.row]
    exact ((List.Sublist.refl [previous, current]).trans
      (List.sublist_append_left _ behind)).trans (List.sublist_append_right _ _)
  have hlink := hf.parent?_of_mem (show current ∈ s.children q by simp [hn.row])
  have hmove : Fills ∅ s (s.moveChildren current previous) :=
    fills_moveChildren h.ample hn.current (h.ample.filled hlink) hn.previous
  have hspare := ((h.handy_list hn.current hlink).of_fills_empty hmove).spare
  have hremove : Fills ∅ _ ((s.moveChildren current previous).remove current) :=
    fills_remove hmove.ample hspare
  have hsound : Keeps (mergeInto previous [current]) s := keeps_mergeInto h.sound
  have horder : KeepsOrder (mergeInto previous [current]) s := keepsOrder_mergeInto h.ordered hids
  have hrun : ((mergeInto previous [current]).run s).2 =
      (s.moveChildren current previous).remove current := by
    rw [mergeInto, run_get, if_pos ⟨hn.previous, hn.current⟩]
    rfl
  refine ⟨?_, ?_, hremove.ample⟩
  · rw [← hrun]
    exact Store.Evolves.sound hsound
  · rw [← hrun]
    exact horder.1

theorem unites_mergeInto (h : s.Supplied) (hbody : s.kind b = .script) (hb : b < s.size)
    (hq : StatementsOf s b q) (hrow : s.children q = before ++ previous :: rest) :
    Gives (mergeInto previous rest) s fun _ s' => Unites b s s' := by
  induction rest generalizing s previous before with
  | nil => exact .refl h b
  | cons current rest ih =>
      rw [mergeInto, gives_bind, gives_get]
      refine gives_ite (fun hkinds => ?_) fun _ => ?_
      · have hn : Neighbours s q previous current before rest :=
          ⟨⟨hq.statements, hrow⟩, hkinds.1, hkinds.2⟩
        have hmerges := hn.merges h.ordered.toForest
        have hcombines := hmerges.combines hn h hq.inside
        have h₁ := supplied_merge h hn
        have hunites : Unites b s ((s.moveChildren current previous).remove current) := by
          refine ⟨⟨_, hcombines⟩, h₁, fun x => ?_⟩
          obtain ⟨hprevious, hcurrent⟩ := hn.mem_lists h.ordered.toForest hq.inside
          refine hmerges.lists_iff hn h ?_ hprevious hcurrent
          exact hcombines.lists_eq_of_gone h.sound h.ordered.toForest h₁.sound hb hbody
            (lt_of_kind (by simp [hn.current]))
        rw [gives_bind, gives_modify, gives_bind]
        refine (ih hunites.supplied ((hunites.kind_eq hb).trans hbody) (hunites.lt hb)
          (hq.later hunites h hbody hb) hmerges.row_place).mono fun _ s' hs' => ?_
        exact hunites.trans hs' h.sound.toLinked
      · have hrow' : s.children q = (before ++ [previous]) ++ current :: rest := by
          rw [hrow, List.append_assoc]
          rfl
        exact ih h hbody hb hq hrow'

theorem unites_mergeNeighbours (h : s.Supplied) (hbody : s.kind b = .script) (hb : b < s.size)
    (hq : StatementsOf s b q) : Gives (mergeNeighbours q) s fun _ s' => Unites b s s' := by
  rw [mergeNeighbours, gives_bind, gives_get]
  split
  · exact .refl h b
  case h_2 first rest hrow =>
      have hrow' : s.children q = [] ++ first :: rest := hrow
      exact unites_mergeInto h hbody hb hq hrow'

/-- The lists of statements of a body. -/
theorem statementsOf_of_mem (h : s.Supplied) (hbody : s.kind b = .script)
    (hq : q ∈ b :: (s.bodyNodes b).filter fun id => (s.kind id).isStatementList) :
    StatementsOf s b q := by
  rcases List.mem_cons.mp hq with rfl | hq
  · exact ⟨.inl rfl, by rw [hbody]; rfl⟩
  · obtain ⟨hmem, hkind⟩ := List.mem_filter.mp hq
    exact ⟨.inr (h.ordered.toForest.mem_bodyNodes.mp hmem), hkind⟩

theorem unites_mergeBody (h : s.Supplied) (hbody : s.kind b = .script) (hb : b < s.size) :
    Gives (mergeBody b) s fun _ s' => Unites b s s' := by
  rw [mergeBody, gives_bind, gives_get]
  refine (gives_sweep (I := fun rest s' => (∀ q ∈ rest, StatementsOf s b q) ∧ Unites b s s')
    ⟨fun q hq => statementsOf_of_mem h hbody hq, .refl h b⟩ ?_).mono fun _ _ hs => hs.2
  rintro q rest s' ⟨hrest, hs⟩
  rw [List.forall_mem_cons] at hrest
  refine (unites_mergeNeighbours hs.supplied ((hs.kind_eq hb).trans hbody) (hs.lt hb)
    (hrest.1.later hs h hbody hb)).mono fun _ s'' hs' => ?_
  exact ⟨hrest.2, hs.trans hs' h.sound.toLinked⟩

/-! ### The list moves into the head of a loop -/

theorem supplied_moveIntoLoop (h : s.Supplied) (hkind : s.kind list = .varList)
    (hlink : s.parent? list = some q) : Gives (moveIntoLoop list) s fun _ s' => s'.Supplied := by
  have hparts : Gives (moveIntoLoop list) s fun _ s' => s'.Ample := by
    rw [moveIntoLoop, gives_bind, gives_get]
    dsimp only
    split
    case h_2 => exact h.ample
    case h_1 next _ =>
        refine gives_ite (fun hloop => ?_) fun _ => h.ample
        have hinsert : Fills ∅ s (s.insert next 0 list) :=
          fills_insert h.ample 0 (lt_of_kind (by simp [hloop.1])) (h.handy_list hkind hlink)
            (joins_of_kind (by rw [hloop.1]; rfl)) (by simp [hloop.1])
        rw [gives_set]
        exact (fills_setRole (M := ∅) hinsert.ample list (by simp)).ample
  refine ((Gives.and (keeps_moveIntoLoop h.sound hkind) (keepsOrder_moveIntoLoop h.ordered)).and
    hparts).mono ?_
  rintro _ s' ⟨⟨hsound, hordered, -⟩, hample⟩
  exact ⟨hsound.sound, hordered, hample⟩

/-- A list moves if a loop follows it. -/
theorem gives_enters (h : s.Forest) (hkind : s.kind list = .varList) :
    Gives (moveIntoLoop list) s fun _ s' => s' = s ∨ ∃ p next before behind,
      Precedes s p list next before behind ∧ Enters p list next before behind s s' := by
  rw [moveIntoLoop, gives_bind, gives_get]
  dsimp only
  split
  case h_2 => exact .inl rfl
  case h_1 next hnext =>
      refine gives_ite (fun hloop => ?_) fun _ => .inl rfl
      simp only [Option.bind_eq_bind, Option.bind_eq_some_iff] at hnext
      obtain ⟨p, hp, _, hguard, index, hindex, hnext⟩ := hnext
      obtain ⟨before, rest, hsplit⟩ := List.append_of_mem ((h.linked p list).mpr hp)
      rw [h.indexOf?_eq hp hsplit, Option.some_inj] at hindex
      obtain ⟨behind, rfl⟩ : ∃ behind, rest = next :: behind := by
        rw [← hindex, nth?, hsplit, List.getElem?_append_right (Nat.le_succ _)] at hnext
        cases rest with
        | nil => simp at hnext
        | cons x behind => exact ⟨behind, by simpa using hnext⟩
      have hprecedes : Precedes s p list next before behind :=
        ⟨⟨(Option.guard_eq_some' _).mp hguard, hsplit⟩, hkind, hloop.1⟩
      rw [gives_set]
      exact .inr ⟨p, next, before, behind, hprecedes, hprecedes.enters h⟩

/-- A list that moves is what it was. -/
structure Moves (b list : NodeId) (s s' : Store) : Prop where
  combines : Combines b (fun _ => False) s s'
  supplied : s'.Supplied
  names : ∀ x, Lists s' b x ↔ Lists s b x
  pruned : Pruned s list → Pruned s' list

theorem gives_moveIntoLoop (h : s.Supplied) (hb : b < s.size) (hbody : s.kind b = .script)
    (hlist : list ∈ s.lists b) (hit : isIterator s list = false) :
    Gives (moveIntoLoop list) s fun _ s' => Moves b list s s' := by
  have hf := h.ordered.toForest
  obtain ⟨hinside, hkind⟩ := hf.mem_lists.mp hlist
  obtain ⟨q, hlink, -⟩ := hinside.parent hf.toLinked
  refine (Gives.and (gives_enters hf hkind) (supplied_moveIntoLoop h hkind hlink)).mono ?_
  rintro _ s' ⟨rfl | ⟨p, next, before, behind, hprecedes, henters⟩, hsupplied⟩
  · exact ⟨.refl hf b, h, fun _ => Iff.rfl, id⟩
  · have hcombines := henters.combines hprecedes h hinside hit
    refine ⟨hcombines, hsupplied, fun x => lists_iff ?_ fun l hl => ?_, fun hpruned => ?_⟩
    · exact lists_eq_of_combines hcombines h hsupplied.sound hb hbody
    · obtain ⟨hspares, hrow⟩ := henters.spares hprecedes h (hf.mem_lists.mp hl).2
      rw [hspares.listNames_eq hrow]
    · exact (henters.spares hprecedes h hkind).1.pruned henters.row_list hpruned

/-! ### A list collects the names -/

theorem supplied_collector (h : s.Supplied) (hb : b < s.size) (hbody : s.kind b = .script)
    (hfirst : s.kind first = .varList) :
    Gives (Declarations.collector b first) s fun _ s' => s'.Supplied := by
  have hparts : Gives (Declarations.collector b first) s fun _ s' => s'.Ample := by
    rw [Declarations.collector, gives_bind, gives_get]
    refine gives_ite (fun _ => ?_) fun _ => h.ample
    rcases hadd : s.add { kind := .varList, span := s.span b } with ⟨new, s₁⟩
    obtain ⟨hs, hnew, -⟩ := handy_of_add (M := ∅) h.ample hadd (by simp)
    obtain ⟨rfl, hadded⟩ := added_of_add h.sound.toLinked hadd
    have hrole : s₁.role? s.size = none := by rw [role?, hadded.head_eq, if_pos rfl]
    exact (fills_insert (M := ∅) hs.ample 0 (hs.lt hb) hnew
      (fun _ => unlooped_of_role (by simp [hrole])) (by simp [hs.kind_eq b hb, hbody])).ample
  refine ((Gives.and (evolves_collector h.sound hbody hb hfirst)
    (keepsOrder_collector h.ordered hbody hb hfirst)).and hparts).mono ?_
  rintro _ s' ⟨⟨⟨hsound, -⟩, ⟨hordered, -⟩, -⟩, hample⟩
  exact ⟨hsound.sound, hordered, hample⟩

/-- The list that collects the names of a body is its first one, and no iterator. -/
structure Leads (b list : NodeId) (others : List NodeId) (s s' : Store) : Prop where
  unites : Unites b s s'
  not_isIterator : isIterator s' list = false
  lists_eq : ∃ rest, s'.lists b = list :: rest ∧ (rest.filter fun l => !isIterator s' l) =
    others.filter fun l => !isIterator s l

theorem Opens.leads {new : NodeId} (hopens : Opens b new s s') (h : s.Supplied) (h' : s'.Supplied)
    (hb : b < s.size) (hbody : s.kind b = .script) (hlists : s.lists b = first :: others)
    (hit : isIterator s first) : Leads b new others s s' := by
  have hf := h.ordered.toForest
  have hcombines := hopens.combines h hbody hb
  have hlists' := hopens.lists_eq hf hb
  have hsame : ∀ l ∈ s.lists b, isIterator s' l = isIterator s l := fun l hl =>
    hcombines.isIterator_eq hf hl (hlists' ▸ List.mem_cons_of_mem _ hl)
  rw [hlists] at hlists' hsame
  rw [List.forall_mem_cons] at hsame
  refine ⟨⟨⟨_, hcombines⟩, h', fun x => hopens.lists_iff h hbody hb⟩, hopens.not_isIterator, _,
    hlists', ?_⟩
  rw [List.filter_cons_of_neg (by simp [hsame.1, hit])]
  exact List.filter_congr fun l hl => by rw [hsame.2 l hl]

theorem gives_collector_leads (h : s.Supplied) (hb : b < s.size) (hbody : s.kind b = .script)
    (hlists : s.lists b = first :: others) :
    Gives (Declarations.collector b first) s fun list s' => Leads b list others s s' := by
  have hf := h.ordered.toForest
  have hfirst : first ∈ s.lists b := hlists ▸ List.mem_cons_self
  have hsupplied := supplied_collector h hb hbody (hf.mem_lists.mp hfirst).2
  suffices hleads : Gives (Declarations.collector b first) s fun list s' =>
      s'.Supplied → Leads b list others s s' from
    (hsupplied.and hleads).mono fun _ _ hs => hs.2 hs.1
  rw [Declarations.collector, gives_bind, gives_get]
  refine gives_ite (fun hit => ?_) fun hit _ => ?_
  · rcases hadd : s.add { kind := .varList, span := s.span b } with ⟨new, s₁⟩
    exact fun hs => (opens_insert hf hb hadd).leads h hs hb hbody hlists hit
  · exact ⟨.refl h b, Bool.eq_false_iff.mpr hit, others, hlists, rfl⟩

/-! ### A body is combined -/

/-- Nothing is left to be combined in a body: all lists but the first one are iterators of loops, and
the first one has no declaration that can be dropped. -/
structure Settled (b : NodeId) (s : Store) : Prop where
  others : ∀ l ∈ (s.lists b).tail, isIterator s l
  pruned : ∀ l ∈ (s.lists b).head?, isIterator s l = false → Pruned s l

/-- What an edit gives that settles a body. -/
structure Settles (b : NodeId) (s s' : Store) : Prop where
  unites : Unites b s s'
  settled : Settled b s'

theorem settled_of_lists (hlists : s.lists b = first :: others) (hothers : ∀ l ∈ others, isIterator s l)
    (hpruned : isIterator s first = false → Pruned s first) : Settled b s := by
  refine ⟨?_, ?_⟩
  · rwa [hlists, List.tail_cons]
  · rw [hlists, List.head?_cons]
    rintro _ ⟨⟩
    exact hpruned

/-- The first list collects the names of the others, loses declarations and moves. -/
theorem gives_gather (h : s.Supplied) (hb : b < s.size) (hbody : s.kind b = .script)
    (hlists : s.lists b = list :: rest) (hit : isIterator s list = false)
    (hdeclared : ∀ x ∈ declared, x ∈ listNames s list) :
    Gives (do
      assignLists list (rest.filter fun l => !isIterator s l) declared
      let _ ← pruneList list
      moveIntoLoop list
      return true) s fun _ s' => Settles b s s' := by
  have hf := h.ordered.toForest
  have hlist : list ∈ s.lists b := hlists ▸ List.mem_cons_self
  have hnodup : (list :: rest).Nodup := hlists ▸ (hf.nodup_bodyNodes b).filter _
  obtain ⟨hnot, hnodup⟩ := List.nodup_cons.mp hnodup
  have hothers : ∀ l ∈ rest.filter fun l => !isIterator s l,
      l ∈ s.lists b ∧ isIterator s l = false ∧ l ≠ list := by
    intro l hl
    obtain ⟨hmem, hitl⟩ := List.mem_filter.mp hl
    refine ⟨hlists ▸ List.mem_cons_of_mem _ hmem, by simpa using hitl, ?_⟩
    rintro rfl
    exact hnot hmem
  rw [gives_bind]
  refine (combines_assignLists h hb hbody hlist hit hothers (hnodup.filter _) hdeclared).mono ?_
  rintro _ s₁ ⟨hcombines, h₁, hnames₁⟩
  have hb₁ := hcombines.lt hb
  have hbody₁ := (hcombines.kind_eq hb).trans hbody
  -- What is left are the collector and the iterators.
  have hlists₁ : s₁.lists b = list :: rest.filter fun l => isIterator s l := by
    rw [hcombines.lists_eq h.sound hf h₁.sound hb hbody fun r hr =>
      lt_of_kind (by simp [(hf.mem_lists.mp (hothers r hr).1).2]), hlists, List.filter_cons_of_pos]
    · congr 1
      refine List.filter_congr fun l hl => ?_
      simp [List.mem_filter, hl]
    · simp [List.mem_filter, hnot]
  have hlist₁ : list ∈ s₁.lists b := hlists₁ ▸ List.mem_cons_self
  have hit₁ : isIterator s₁ list = false := by rwa [hcombines.isIterator_eq hf hlist hlist₁]
  rw [gives_bind]
  refine (gives_pruneList h₁ hb₁ hbody₁ hlist₁ hit₁).mono ?_
  rintro _ s₂ ⟨hprunes, hpruned, hnames₂⟩
  have hb₂ := hprunes.combines.lt hb₁
  have hbody₂ := (hprunes.combines.kind_eq hb₁).trans hbody₁
  have hlists₂ := lists_eq_of_combines hprunes.combines h₁ hprunes.supplied.sound hb₁ hbody₁
  have hlist₂ : list ∈ s₂.lists b := hlists₂ ▸ hlist₁
  have hf₁ := h₁.ordered.toForest
  have hit₂ : isIterator s₂ list = false := by rwa [hprunes.combines.isIterator_eq hf₁ hlist₁ hlist₂]
  rw [gives_bind]
  refine (gives_moveIntoLoop hprunes.supplied hb₂ hbody₂ hlist₂ hit₂).mono ?_
  rintro _ s₃ hmoves
  rw [gives_pure]
  have hlists₃ :=
    lists_eq_of_combines hmoves.combines hprunes.supplied hmoves.supplied.sound hb₂ hbody₂
  have hunites : Unites b s s₃ :=
    ((Unites.mk ⟨_, hcombines⟩ h₁ hnames₁).trans ⟨⟨_, hprunes.combines⟩, hprunes.supplied, hnames₂⟩
      hf.toLinked).trans ⟨⟨_, hmoves.combines⟩, hmoves.supplied, hmoves.names⟩ hf.toLinked
  refine ⟨hunites, settled_of_lists (hlists₃.trans (hlists₂.trans hlists₁)) (fun l hl => ?_)
    fun _ => hmoves.pruned hpruned⟩
  obtain ⟨hmem, hitl⟩ := List.mem_filter.mp hl
  obtain ⟨_, hcombines₃⟩ := hunites.combines
  have hmem' : l ∈ s.lists b := hlists ▸ List.mem_cons_of_mem _ hmem
  exact hcombines₃.isIterator (hf.mem_lists.mp hmem').2 hitl

theorem gives_combineBody (h : s.Supplied) (hb : b < s.size) (hbody : s.kind b = .script) :
    Gives (combineBody b) s fun _ s' => Settles b s s' := by
  have hf := h.ordered.toForest
  rw [combineBody, gives_bind, gives_get]
  split
  case h_1 hnone =>
      have hlists : s.lists b = [] := hnone
      rw [gives_pure]
      refine ⟨.refl h b, ?_, ?_⟩ <;> simp [hlists]
  case h_2 first others hsome =>
      have hlists : s.lists b = first :: others := hsome
      have hfirst : first ∈ s.lists b := hlists ▸ List.mem_cons_self
      dsimp only
      refine gives_ite (fun hnone => ?_) fun hsome => ?_
      · have hothers : ∀ l ∈ others, isIterator s l := by
          simpa [List.filter_eq_nil_iff] using hnone
        refine gives_ite (fun hit => ?_) fun hit => ?_
        · rw [gives_pure]
          exact ⟨.refl h b, settled_of_lists hlists hothers (by simp [hit])⟩
        · have hit' : isIterator s first = false := Bool.eq_false_iff.mpr hit
          refine (gives_pruneList h hb hbody hfirst hit').mono ?_
          rintro _ s' ⟨hprunes, hpruned, hnames⟩
          have hlists' := lists_eq_of_combines hprunes.combines h hprunes.supplied.sound hb hbody
          refine ⟨⟨⟨_, hprunes.combines⟩, hprunes.supplied, hnames⟩,
            settled_of_lists (hlists'.trans hlists) (fun l hl => ?_) fun _ => hpruned⟩
          have hmem : l ∈ s.lists b := hlists ▸ List.mem_cons_of_mem _ hl
          exact hprunes.combines.isIterator (hf.mem_lists.mp hmem).2 (hothers l hl)
      · rw [gives_bind]
        refine (gives_collector_leads h hb hbody hlists).mono ?_
        rintro list s₁ ⟨hunites, hit, rest, hlists₁, hothers⟩
        rw [gives_bind, gives_get, ← hothers]
        refine (gives_gather hunites.supplied (hunites.lt hb) ((hunites.kind_eq hb).trans hbody)
          hlists₁ hit fun x => NameSet.mem_ofList.mp).mono fun _ s₂ hs₂ => ?_
        exact ⟨hunites.trans hs₂.unites hf.toLinked, hs₂.settled⟩

/-! ### A settled body stays as it is -/

theorem run_prune (h : kept s initialized ds seen = ds) :
    (prune initialized ds seen).run s = (false, s) := by
  induction ds generalizing seen with
  | nil => rfl
  | cons d rest ih =>
      rw [kept] at h
      rw [prune, run_get]
      split at h
      case isTrue hinit =>
          rw [if_pos hinit]
          exact ih (List.cons.inj h).2
      case isFalse hinit =>
          rw [if_neg hinit]
          split at h
          case isTrue =>
              have hlength := (kept_sublist s initialized rest seen).length_le
              rw [h, List.length_cons] at hlength
              exact absurd hlength (Nat.not_succ_le_self _)
          case isFalse hdrop =>
              rw [if_neg hdrop]
              exact ih (List.cons.inj h).2

theorem run_pruneList (h : Pruned s list) : (pruneList list).run s = (false, s) := by
  rw [pruneList, run_get]
  exact run_prune h

theorem run_mergeInto (h : (previous :: rest).Pairwise fun x y =>
    ¬ (s.kind x = .varList ∧ s.kind y = .varList)) :
    (mergeInto previous rest).run s = (false, s) := by
  induction rest generalizing previous with
  | nil => rfl
  | cons current rest ih =>
      obtain ⟨hprevious, hrest⟩ := List.pairwise_cons.mp h
      rw [mergeInto, run_get, if_neg (hprevious current List.mem_cons_self)]
      exact ih hrest

theorem run_sweep {α : Type} {edit : α → Edit Bool} {items : List α}
    (h : ∀ item ∈ items, (edit item).run s = (false, s)) : (sweep edit items).run s = (false, s) := by
  induction items with
  | nil => rfl
  | cons item rest ih =>
      rw [List.forall_mem_cons] at h
      rw [sweep, run_bind, h.1, run_bind, ih h.2]
      rfl

namespace Settled

variable (h : Settled b s) (hs : s.Supplied)
include h

/-- There is one list at most that is no iterator. -/
theorem eq_of_not_isIterator {x y : NodeId} (hx : x ∈ s.lists b) (hy : y ∈ s.lists b)
    (hitx : isIterator s x = false) (hity : isIterator s y = false) : x = y := by
  have hothers := h.others
  cases hlists : s.lists b with
  | nil =>
      rw [hlists] at hx
      cases hx
  | cons first others =>
      rw [hlists, List.tail_cons] at hothers
      rw [hlists, List.mem_cons] at hx hy
      have hfirst : ∀ {l}, l = first ∨ l ∈ others → isIterator s l = false → l = first :=
        fun hl hit => hl.resolve_right fun hmem => by simp [hothers _ hmem] at hit
      rw [hfirst hx hitx, hfirst hy hity]

theorem length_filter_le : ((s.lists b).filter fun l => !isIterator s l).length ≤ 1 := by
  have hothers := h.others
  cases hlists : s.lists b with
  | nil => exact Nat.zero_le 1
  | cons first others =>
      rw [hlists, List.tail_cons] at hothers
      have hnone : others.filter (fun l => !isIterator s l) = [] :=
        List.filter_eq_nil_iff.mpr fun l hl => by simp [hothers l hl]
      rw [List.filter_cons, hnone]
      split <;> simp

include hs

theorem run_mergeNeighbours (hq : StatementsOf s b q) :
    (mergeNeighbours q).run s = (false, s) := by
  have hf := hs.ordered.toForest
  have hplace : ∀ x ∈ s.children q, s.kind x = .varList → x ∈ s.lists b ∧ isIterator s x = false := by
    intro x hx hkind
    refine ⟨hf.mem_lists.mpr ⟨?_, hkind⟩, ?_⟩
    · rcases hq.inside with rfl | hinside
      · exact .child hx
      · refine hinside.step ?_ hx
        have hstatements := hq.statements
        revert hstatements
        cases s.kind q <;> simp [Kind.isStatementList]
    · exact not_isIterator_of_statement hs (hf.parent?_of_mem hx) hq.statements hkind
  rw [mergeNeighbours, run_get]
  split
  · rfl
  case h_2 first rest hrow =>
      refine run_mergeInto ?_
      rw [← hrow]
      refine (hf.nodup q).imp_of_mem fun {x y} hx hy hne hkinds => hne ?_
      obtain ⟨hlistx, hitx⟩ := hplace x hx hkinds.1
      obtain ⟨hlisty, hity⟩ := hplace y hy hkinds.2
      exact h.eq_of_not_isIterator hlistx hlisty hitx hity

variable (hbody : s.kind b = .script)
include hbody

theorem run_mergeBody : (mergeBody b).run s = (false, s) := by
  rw [mergeBody, run_get]
  exact run_sweep fun q hq => h.run_mergeNeighbours hs (statementsOf_of_mem hs hbody hq)

omit hs hbody in
theorem run_combineBody : (combineBody b).run s = (false, s) := by
  rw [combineBody, run_get]
  split
  case h_1 => rfl
  case h_2 first others hsome =>
      have hlists : s.lists b = first :: others := hsome
      have hothers : others.filter (fun l => !isIterator s l) = [] := by
        have hall := h.others
        rw [hlists, List.tail_cons] at hall
        exact List.filter_eq_nil_iff.mpr fun l hl => by simp [hall l hl]
      rw [hothers]
      dsimp only [List.isEmpty_nil]
      rw [if_pos rfl]
      split
      case isTrue => rfl
      case isFalse hit =>
          refine run_pruneList (h.pruned first ?_ (Bool.eq_false_iff.mpr hit))
          rw [hlists]
          rfl

/-- A visit of a settled body does nothing. -/
theorem run_visitBody : (visitBody b).run s = (false, s) := by
  rw [visitBody, run_bind, h.run_mergeBody hs hbody, run_bind, h.run_combineBody, run_bind,
    h.run_mergeBody hs hbody]
  rfl

end Settled

theorem gives_visitBody (h : s.Supplied) (hb : b < s.size) (hbody : s.kind b = .script) :
    Gives (visitBody b) s fun _ s' => Settles b s s' := by
  have hf := h.ordered.toForest
  rw [visitBody, gives_bind]
  refine (unites_mergeBody h hbody hb).mono fun _ s₁ hs₁ => ?_
  have hb₁ := hs₁.lt hb
  have hbody₁ := (hs₁.kind_eq hb).trans hbody
  rw [gives_bind]
  refine (gives_combineBody hs₁.supplied hb₁ hbody₁).mono fun _ s₂ hs₂ => ?_
  have hbody₂ := (hs₂.unites.kind_eq hb₁).trans hbody₁
  rw [Gives, run_bind, hs₂.settled.run_mergeBody hs₂.unites.supplied hbody₂]
  exact ⟨hs₁.trans hs₂.unites hf.toLinked, hs₂.settled⟩

end Declarations

end ScriptMin
