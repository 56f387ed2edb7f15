import ScriptMin.Proofs.Pass.DeclarationForests
import ScriptMin.Proofs.Pass.Placing

/-!
The passes that move and remove declarations leave jumps in order. A list of declarations holds
nothing but declarations, and jumps do not care for either, so that an initializer is allowed
where the list is. A list that moves into the head of the loop behind it finds there what it had
around it, and the loop.
-/

namespace ScriptMin

open Store Edit

variable {s s' : Store} {id list : NodeId} {C C' : Plan} {X : Reach}

/-! ### Combination of declarations -/

namespace Declarations

variable {collector declaration : NodeId} {declared : NameSet}

theorem keepsOrder_mergeInto {previous : NodeId} {rest : List NodeId} (h : s.Ordered)
    (hids : Siblings s list (previous :: rest)) : KeepsOrder (mergeInto previous rest) s := by
  induction rest generalizing s previous with
  | nil => exact keepsOrder_pure h
  | cons current rest ih =>
      rw [KeepsOrder, mergeInto, gives_bind, gives_get]
      split
      case isFalse => exact ih h (hids.sublist (List.sublist_cons_self _ _))
      case isTrue hkinds =>
          obtain ⟨C, hC, hexact⟩ := h.exists_exact
          have hprevious := hids.parent previous List.mem_cons_self
          have hcurrent := hids.parent current (List.mem_cons_of_mem _ List.mem_cons_self)
          have hmove : Extends C s C (s.moveChildren current previous) := by
            refine hC.moveChildren h.toLinked (parent?_lt hprevious) ?_ ?_ ?_
            · rw [hkinds.1, hkinds.2]
            · simp [hkinds.2]
            · have hreach : ∀ {id}, s.parent? id = some list → s.kind id = .varList →
                  C id = (C list).inside (s.head list) := fun hparent hkind =>
                hexact.eq_inside hparent
                  (hC.not_valued (parent?_lt hparent) (by rw [hkind]; rfl))
              rw [hreach hprevious hkinds.1, hreach hcurrent hkinds.2]
          have hplan : s.Rearranged ((s.moveChildren current previous).remove current) :=
            (hmove.trans hmove.planned.remove).rearranged
          have hs := steady_merge h.toForest hids
          rw [gives_bind, gives_modify, gives_bind]
          refine (ih ⟨hs.forest, hplan.arranged⟩ (Siblings.of_steady (hids.sublist ?_) hs)).mono ?_
          · exact List.Sublist.cons_cons _ (List.sublist_cons_self _ _)
          · exact fun _ s' hs' => ⟨hs'.1, hplan.trans hs'.2⟩

theorem keepsOrder_mergeNeighbours (h : s.Ordered) : KeepsOrder (mergeNeighbours list) s := by
  rw [KeepsOrder, mergeNeighbours, gives_bind, gives_get]
  split
  · exact keepsOrder_pure h
  case h_2 first rest hlist =>
      exact keepsOrder_mergeInto h (hlist ▸ siblings_children h.toForest list)

theorem keepsOrder_mergeBody (h : s.Ordered) : KeepsOrder (mergeBody id) s := by
  rw [KeepsOrder, mergeBody, gives_bind, gives_get]
  exact keepsOrder_sweep h fun _ _ _ hs _ => keepsOrder_mergeNeighbours hs

/-! ### Collecting names and assigning initializers -/

theorem extends_collect (h : Planned C s) (hcollector : s.kind collector = .varList)
    (name : String) :
    Gives (collect collector declared name) s fun _ s' => ∃ C', Extends C s C' s' := by
  rw [collect]
  refine gives_ite (fun _ => ⟨C, .refl h⟩) fun _ => ?_
  rw [gives_bind, gives_get]
  have hlt : collector < s.size := lt_of_kind (by simp [hcollector])
  have hkind : (s.head collector).kind = .varList := hcollector
  rcases hadd : s.add { kind := .declaration, span := s.span collector, payload := .text name }
    with ⟨new, s₁⟩
  obtain ⟨C', hmade⟩ := h.made_add (X := (C collector).idle) (Head.fitsIn_of_not_isBound rfl) hadd
  have hkind₁ : (s₁.head collector).kind = .varList := (hmade.kind_eq hlt).trans hkind
  have hhead := head_of_add hadd
  refine ⟨C', hmade.toExtends.trans (hmade.planned.append (hmade.lt hlt) ?_ ?_)⟩
  · exact Head.admits_of_isDeclarationList (by rw [hkind₁]; rfl) (by rw [hhead]) (by rw [hhead])
  · have hvalues : (s₁.head collector).values (s₁.head new) = false := by
      rw [Head.values, hkind₁, hhead]
      rfl
    rw [Reach.around_of_not_values hvalues, hmade.plan_new,
      Reach.inside_of_isNeutral (by rw [hkind₁]; rfl), hmade.plan_eq _ hlt]

theorem extends_collectAll (h : Planned C s) (hcollector : s.kind collector = .varList)
    (names : List String) :
    Gives (collectAll collector names declared) s fun _ s' => ∃ C', Extends C s C' s' := by
  induction names generalizing s C declared with
  | nil => exact ⟨C, .refl h⟩
  | cons name rest ih =>
      rw [collectAll, gives_bind]
      refine (extends_collect h hcollector name).mono ?_
      rintro _ s₁ ⟨C₁, hs₁⟩
      have hcollector₁ : s₁.kind collector = .varList := by
        rw [hs₁.kind_eq (lt_of_kind (by simp [hcollector])), hcollector]
      refine (ih hs₁.planned hcollector₁).mono ?_
      rintro _ s₂ ⟨C₂, hs₂⟩
      exact ⟨C₂, hs₁.trans hs₂⟩

theorem extends_target (h : Planned C s) (hs : s.Linked) (hkind : s.kind declaration = .declaration)
    (hle : C declaration ≤ X) :
    Gives (target declaration) s fun target s' =>
      ∃ C', Extends C s C' s' ∧ Value C' s' X.idle target := by
  rw [target, gives_bind, gives_get]
  split
  case h_1 pattern hpattern =>
      have hvalue := h.value_of_child? hs (by rw [hkind]; rfl) rfl hpattern
      exact ⟨C, .refl h, hvalue.mono (Reach.idle_mono hle)⟩
  case h_2 =>
      rcases hadd : s.add
        { kind := .identifier, span := s.span declaration, payload := .text (s.text declaration) }
        with ⟨name, s₁⟩
      obtain ⟨C', hmade⟩ := h.made_add (X := X.idle.value) (Head.fitsIn_of_not_isBound rfl) hadd
      exact ⟨C', hmade.toExtends, hmade.value rfl⟩

/-- The assignment of an initializer is allowed where the declaration is. -/
theorem extends_toAssignment (h : Planned C s) (hs : s.Forest) (hlist : list < s.size)
    (hcollector : s.kind collector = .varList) (hdeclaration : Movable {list} s declaration)
    (hkind : s.kind declaration = .declaration) (hle : C declaration ≤ X) :
    Gives (toAssignment collector declaration declared) s fun result s' =>
      ∃ C', Extends C s C' s' ∧ ∀ assign ∈ result.2, Value C' s' X.idle assign := by
  have hlt := hdeclaration.lt
  have hcollectorLt : collector < s.size := lt_of_kind (by simp [hcollector])
  rw [toAssignment, gives_bind, gives_get, gives_bind]
  refine Gives.mono ((gives_collectAll hs hcollectorLt (singleton_lt hlist) _).and
    (extends_collectAll h hcollector _)) ?_
  rintro declared' s₁ ⟨hsteady₁, C₁, hs₁⟩
  have hkind₁ : s₁.kind declaration = .declaration := by rw [hs₁.kind_eq hlt, hkind]
  rw [gives_bind]
  refine Gives.mono ((gives_target hsteady₁.forest (hs₁.lt hlist)
    (hdeclaration.of_steady hsteady₁)).and (extends_target hs₁.planned hsteady₁.forest.toLinked
      hkind₁ (hs₁.plan_eq declaration hlt ▸ hle))) ?_
  rintro target s₂ ⟨⟨hsteady₂, -⟩, C₂, hs₂, htarget⟩
  have hs₁₂ := hs₁.trans hs₂
  rw [gives_bind, gives_get]
  split
  case h_1 => exact ⟨C₂, hs₁₂, (by simp)⟩
  case h_2 initializer hinitializer =>
      have hkind₂ : s₂.kind declaration = .declaration := by rw [hs₁₂.kind_eq hlt, hkind]
      have hvalue : Value C₂ s₂ X.idle initializer := by
        refine (hs₂.planned.value_of_child? hsteady₂.forest.toLinked (by rw [hkind₂]; rfl) rfl
          hinitializer).mono (Reach.idle_mono ?_)
        rw [hs₁₂.plan_eq declaration hlt]
        exact hle
      rcases hadd : s₂.add { kind := .assign, span := s₂.span declaration } with ⟨assign, s₃⟩
      obtain ⟨C₃, hmade⟩ :=
        hs₂.planned.made_add (X := X.idle.value) (Head.fitsIn_of_not_isBound rfl) hadd
      have hleft := (hmade.append rfl (htarget.value.of_extends hmade.toExtends)).dropRole target
      have hright :=
        (hleft.append rfl (hvalue.value.of_extends hleft.toExtends)).dropRole initializer
      rw [gives_bind, gives_set, gives_pure]
      refine ⟨C₃, hs₁₂.trans hright.toExtends, ?_⟩
      rintro _ ⟨⟩
      exact hright.value rfl

theorem extends_toAssignments {declarations : List NodeId} (h : Planned C s) (hs : s.Forest)
    (hlist : list < s.size) (hcollector : s.kind collector = .varList)
    (hdeclarations : ∀ d ∈ declarations, Movable {list} s d ∧ s.kind d = .declaration ∧ C d ≤ X) :
    Gives (toAssignments collector declarations declared) s fun result s' =>
      ∃ C', Extends C s C' s' ∧ ∀ assign ∈ result.2, Value C' s' X.idle assign := by
  induction declarations generalizing s C declared with
  | nil => exact ⟨C, .refl h, nofun⟩
  | cons declaration rest ih =>
      rw [List.forall_mem_cons] at hdeclarations
      obtain ⟨⟨hmovable, hkind, hle⟩, hrest⟩ := hdeclarations
      have hcollectorLt : collector < s.size := lt_of_kind (by simp [hcollector])
      rw [toAssignments, gives_bind]
      refine Gives.mono ((gives_toAssignment hs hlist hcollectorLt hmovable).and
        (extends_toAssignment h hs hlist hcollector hmovable hkind hle)) ?_
      rintro ⟨declared', assign⟩ s₁ ⟨⟨hsteady₁, -⟩, C₁, hs₁, hassign⟩
      rw [gives_bind]
      have hrest₁ : ∀ d ∈ rest, Movable {list} s₁ d ∧ s₁.kind d = .declaration ∧ C₁ d ≤ X := by
        intro d hd
        obtain ⟨hmovable, hkind, hle⟩ := hrest d hd
        refine ⟨hmovable.of_steady hsteady₁, ?_, ?_⟩
        · rw [hs₁.kind_eq hmovable.lt, hkind]
        · rw [hs₁.plan_eq d hmovable.lt]
          exact hle
      refine (ih hs₁.planned hsteady₁.forest (hs₁.lt hlist)
        ((hs₁.kind_eq hcollectorLt).trans hcollector) hrest₁).mono ?_
      rintro ⟨declared'', assigns⟩ s₂ ⟨C₂, hs₂, hassigns⟩
      refine ⟨C₂, hs₁.trans hs₂, fun a ha => ?_⟩
      rcases List.mem_append.mp ha with ha | ha
      · exact (hassign a (Option.mem_toList.mp ha)).of_extends hs₂
      · exact hassigns a ha

theorem extends_sequence {span : Span} {assigns : List NodeId} (h : Planned C s)
    (hassigns : ∀ a ∈ assigns, Value C s X.idle a) :
    Gives (sequence span assigns) s fun result s' =>
      ∃ C', Extends C s C' s' ∧ ∀ expression ∈ result, Value C' s' X.idle expression := by
  rw [sequence.eq_def]
  split
  · exact ⟨C, .refl h, (by simp)⟩
  case h_2 assign =>
      refine ⟨C, .refl h, ?_⟩
      rintro _ ⟨⟩
      exact hassigns assign (List.mem_singleton_self _)
  case h_3 =>
      rw [gives_bind, gives_get]
      rcases hadd : s.add { kind := .comma, span } with ⟨comma, s₁⟩
      obtain ⟨C', hmade⟩ := h.made_add (X := X.idle.value) (Head.fitsIn_of_not_isBound rfl) hadd
      have hfold :
          Made C s .comma X.idle.value C' (assigns.foldl (fun s a => s.append comma a) s₁) comma :=
        List.foldlRecOn (motive := fun s' => Made C s .comma X.idle.value C' s' comma) _ _ hmade
          fun s' hs' a ha => hs'.append rfl ((hassigns a ha).value.of_extends hs'.toExtends)
      refine ⟨C', hfold.toExtends, ?_⟩
      rintro _ ⟨⟩
      exact hfold.value rfl

theorem keepsOrder_assignList (h : s.Ordered) (hlist : s.kind list = .varList)
    (hcollector : s.kind collector = .varList) :
    KeepsOrder (assignList collector declared list) s := by
  obtain ⟨C, hC⟩ := h.arranged
  have hlt : list < s.size := lt_of_kind (by simp [hlist])
  have hcollectorLt : collector < s.size := lt_of_kind (by simp [hcollector])
  have hreplaceable : s.Replaceable list := replaceable_of_kind (by rw [hlist]; rfl)
  have hforest : KeepsNodes (assignList collector declared list) s :=
    keepsNodes_assignList h.toForest hlt hcollectorLt
  refine KeepsForest.keepsOrder (hforest.mono fun _ _ hs => hs.forest) ?_
  rw [KeepsPlan, assignList, gives_bind, gives_get]
  dsimp only
  rw [gives_bind, gives_get, gives_bind]
  have hdeclarations : ∀ d ∈ s.children list, Movable {list} s d ∧ s.kind d = .declaration ∧
      C d ≤ (C list).idle := by
    intro d hd
    refine ⟨h.toForest.movable_child hd, ?_, hC.le_of_mem h.toLinked (by rw [hlist]; rfl) hd⟩
    exact (hC.admits (h.parent?_of_mem hd)).declaration hlist
  refine (extends_toAssignments hC h.toForest hlt hcollector hdeclarations).mono ?_
  rintro ⟨declared', assigns⟩ s₁ ⟨C₁, hs₁, hassigns⟩
  rw [gives_bind]
  refine (extends_sequence hs₁.planned hassigns).mono ?_
  rintro expression s₂ ⟨C₂, hs₂, hexpression⟩
  have hs := hs₁.trans hs₂
  have hplan : C₂ list = C list := hs.plan_eq list hlt
  have hlist₂ := hreplaceable.of_extends hs
  rw [gives_bind, gives_get]
  dsimp only
  split
  case h_1 expression =>
      have hvalue : Value C₂ s₂ (C list).idle expression := hexpression expression rfl
      split
      · rw [gives_bind, gives_set, gives_pure]
        refine (hs.trans (hs.planned.replace_of_not_isFixed hvalue.lt ?_ hlist₂.not_isFixed
          (by simp [hlist₂.not_isExpression]))).rearranged
        rw [hplan]
        exact hvalue.le.trans Reach.idle_le
      · rcases hadd : s₂.add { kind := .semicolon, span := s.span list } with ⟨statement, s₃⟩
        obtain ⟨C₃, hmade⟩ :=
          hs.planned.made_add (X := C list) (Head.fitsIn_of_not_isBound rfl) hadd
        have happend := hmade.appendAs rfl .expression (by simp)
          (hvalue.of_extends hmade.toExtends)
        dsimp only
        rw [gives_bind, gives_set, gives_pure]
        exact hs.rearranged.trans (happend.replaceStatement (le_of_eq hplan.symm) hlist₂)
  case h_2 =>
      rw [gives_bind, gives_set, gives_pure]
      refine hs.rearranged.trans ?_
      split
      · exact hs.planned.remove.rearranged
      · exact hs.planned.removeStatement hlist₂

theorem keepsOrder_assignLists {lists : List NodeId} (h : s.Ordered)
    (hlists : ∀ list ∈ lists, s.kind list = .varList) (hcollector : s.kind collector = .varList) :
    KeepsOrder (assignLists collector lists declared) s := by
  induction lists generalizing s declared with
  | nil => exact keepsOrder_pure h
  | cons list rest ih =>
      rw [List.forall_mem_cons] at hlists
      refine (keepsOrder_assignList h hlists.1 hcollector).bind fun declared' s' hs hkept => ?_
      have hstays : ∀ {id}, s.kind id = .varList → s'.kind id = .varList := fun hid => by
        rw [hkept.kind_eq (lt_of_kind (by simp [hid])), hid]
      exact ih hs (fun l hl => hstays (hlists.2 l hl)) (hstays hcollector)

theorem keepsOrder_prune {initialized : NameSet} {declarations : List NodeId} {seen : NameSet}
    (h : s.Ordered) : KeepsOrder (prune initialized declarations seen) s := by
  induction declarations generalizing s seen with
  | nil => exact keepsOrder_pure h
  | cons declaration rest ih =>
      rw [KeepsOrder, prune, gives_bind, gives_get]
      refine gives_ite (fun _ => ih h) fun _ => gives_ite (fun _ => ?_) fun _ => ih h
      obtain ⟨C, hC⟩ := h.arranged
      have hremove : s.Rearranged (s.remove declaration) := hC.remove.rearranged
      rw [gives_bind, gives_modify, gives_bind]
      refine (ih ⟨h.toForest.remove, hremove.arranged⟩).mono fun _ _ hs => ?_
      exact ⟨hs.1, hremove.trans hs.2⟩

theorem keepsOrder_pruneList (h : s.Ordered) : KeepsOrder (pruneList list) s := keepsOrder_prune h

/-- A list of declarations moves into the head of the loop behind it. -/
theorem keepsOrder_moveIntoLoop (h : s.Ordered) : KeepsOrder (moveIntoLoop list) s := by
  obtain ⟨C, hC, hexact⟩ := h.exists_exact
  refine KeepsForest.keepsOrder
    ((keepsNodes_moveIntoLoop h.toForest).mono fun _ _ hs => hs.forest) ?_
  rw [KeepsPlan, moveIntoLoop, gives_bind, gives_get]
  dsimp only
  split
  case h_2 => exact .refl h.arranged
  case h_1 next hnext =>
      refine gives_ite (fun hloop => ?_) fun _ => .refl h.arranged
      simp only [Option.bind_eq_bind, Option.bind_eq_some_iff] at hnext
      obtain ⟨p, hp, _, hguard, index, -, hnext⟩ := hnext
      have hnext' := h.parent?_of_mem (mem_of_nth? hnext)
      have hkind : (s.head next).kind = .forLoop := hloop.1
      have hstatements : (s.head p).kind.isStatementList := (Option.guard_eq_some' _).mp hguard
      have hneutral : (s.head p).kind.isNeutral := by
        cases hcase : (s.head p).kind <;> simp_all [Kind.isStatementList, Kind.isNeutral]
      -- The list and the loop, which is no value, have the same around them, and it is not a label.
      have hloop' : C next = ((C p).inside (s.head p)).idle := by
        rw [hexact hnext', Reach.around_of_not_values, Reach.inside_of_isNeutral hneutral,
          Reach.idle_idle]
        refine Bool.eq_false_iff.mpr fun hvalues => ?_
        have hexpression := (hC.admits hnext').isExpression hvalues
        rw [Head.isExpression, hkind] at hexpression
        cases hexpression
      have hle : C list ≤ (C next).inside (s.head next) := by
        refine le_trans ?_ (Reach.idle_le_inside_of_isLoop (by rw [hkind]; rfl))
        rw [hloop', Reach.inside_of_isNeutral hneutral]
        exact hC.le_of_mem h.toLinked hneutral ((h.linked p list).mpr hp)
      have hinsert : Extends C s C (s.insert next 0 list) := by
        refine hC.insert 0 (h.child_lt (mem_of_nth? hnext))
          (Head.admits_of_isPlain (by rw [hkind]; rfl) (hC.admits hp).role)
          (Reach.le_around hle fun hvalues => hC.valued hp ?_)
        rw [Head.values, hkind] at hvalues
        exact Bool.or_eq_true_iff.mpr (.inr hvalues)
      rw [gives_set]
      exact (hinsert.trans (hinsert.planned.setRole (by simp [Role.isExpression])
        (by simp [Role.isExpression]) (by simp))).rearranged

theorem keepsOrder_collector {body first : NodeId} (h : s.Ordered) (hbody : s.kind body = .script)
    (hlt : body < s.size) (hfirst : s.kind first = .varList) :
    Gives (Declarations.collector body first) s fun list s' =>
      (s'.Ordered ∧ s.Rearranged s') ∧ s'.kind list = .varList := by
  obtain ⟨C, hC⟩ := h.arranged
  have hfirstLt : first < s.size := lt_of_kind (by simp [hfirst])
  have hforest := (gives_collector h.toForest hlt hfirstLt).mono fun _ _ hs => hs.1.forest
  have hplan : Gives (Declarations.collector body first) s fun list s' =>
      s.Rearranged s' ∧ s'.kind list = .varList := by
    rw [Declarations.collector, gives_bind, gives_get]
    refine gives_ite (fun _ => ?_) fun _ => ⟨.refl h.arranged, hfirst⟩
    rcases hadd : s.add { kind := .varList, span := s.span body } with ⟨new, s₁⟩
    have hunvalued : (C body).valued = false := hC.not_valued hlt (by rw [hbody]; rfl)
    obtain ⟨C', hmade⟩ := hC.made_add (X := (C body).idle)
      (Head.fitsIn_of_isUnvalued (fun _ => rfl) fun _ => hunvalued) hadd
    have hbody₁ : (s₁.head body).kind = .script := (hmade.kind_eq hlt).trans hbody
    have hinsert : Extends C' s₁ C' (s₁.insert body 0 new) := by
      refine hmade.planned.insert 0 (hmade.lt hlt) ?_ ?_
      · refine Head.admits_of_isPlain (by rw [hbody₁]; rfl) ?_
        rw [head_of_add hadd]
        simp
      · have hvalues : (s₁.head body).values (s₁.head new) = false := by
          rw [Head.values, hbody₁, head_of_add hadd]
          rfl
        rw [Reach.around_of_not_values hvalues, hmade.plan_new,
          Reach.inside_of_isNeutral (by rw [hbody₁]; rfl), hmade.plan_eq _ hlt]
    have hnew := hmade.trans hinsert
    exact ⟨hnew.rearranged, hnew.kind_new⟩
  refine (hforest.and hplan).mono ?_
  rintro list s' ⟨hforest, hkept, hkind⟩
  exact ⟨⟨⟨hforest, hkept.arranged⟩, hkept⟩, hkind⟩

theorem keepsOrder_combineBody {body : NodeId} (h : s.Ordered) (hbody : s.kind body = .script)
    (hlt : body < s.size) : KeepsOrder (combineBody body) s := by
  rw [KeepsOrder, combineBody, gives_bind, gives_get]
  split
  · exact keepsOrder_pure h
  case h_2 first others hlists =>
      have hkinds : ∀ list ∈ first :: others, s.kind list = .varList := by
        intro list hlist
        rw [← hlists] at hlist
        exact eq_of_beq (List.mem_filter.mp hlist).2
      rw [List.forall_mem_cons] at hkinds
      dsimp only
      refine gives_ite (fun _ => gives_ite (fun _ => keepsOrder_pure h) fun _ =>
        keepsOrder_pruneList h) fun _ => ?_
      rw [gives_bind]
      refine (keepsOrder_collector h hbody hlt hkinds.1).mono ?_
      rintro list s₁ ⟨⟨hs₁, hkept₁⟩, hlist⟩
      rw [gives_bind, gives_get]
      have hothers : ∀ other ∈ others.filter fun list => !isIterator s list,
          s₁.kind other = .varList := by
        intro other hother
        have hkind := hkinds.2 other (List.mem_of_mem_filter hother)
        rw [hkept₁.kind_eq (lt_of_kind (by simp [hkind])), hkind]
      refine Gives.mono (KeepsOrder.bind (keepsOrder_assignLists hs₁ hothers hlist)
        fun _ s₂ hs₂ _ => ?_) fun _ _ hs => ⟨hs.1, hkept₁.trans hs.2⟩
      refine (keepsOrder_pruneList hs₂).bind fun _ s₃ hs₃ _ => ?_
      exact (keepsOrder_moveIntoLoop hs₃).bind fun _ s₄ hs₄ _ => keepsOrder_pure hs₄

theorem keepsOrder_visitBody {body : NodeId} (h : s.Ordered) (hbody : s.kind body = .script)
    (hlt : body < s.size) : KeepsOrder (visitBody body) s := by
  refine (keepsOrder_mergeBody h).bind fun _ s₁ hs₁ hkept => ?_
  have hbody₁ : s₁.kind body = .script := by rw [hkept.kind_eq hlt, hbody]
  refine (keepsOrder_combineBody hs₁ hbody₁ (hkept.lt hlt)).bind fun _ s₂ hs₂ _ => ?_
  exact (keepsOrder_mergeBody hs₂).bind fun _ s₃ hs₃ _ => keepsOrder_pure hs₃

end Declarations

/-- Bodies are scripts, that of the whole store and those of functions. -/
theorem Store.Ordered.kind_body (h : s.Ordered) {body : NodeId}
    (hbody : body ∈ s.root :: (s.descendants s.root).filterMap fun id =>
      if s.kind id = .function then s.child? id .body else none) :
    s.kind body = .script ∧ body < s.size := by
  obtain ⟨C, hC⟩ := h.arranged
  rcases List.mem_cons.mp hbody with rfl | hbody
  · exact ⟨hC.root.kind, hC.root.lt⟩
  · obtain ⟨id, -, hid⟩ := List.mem_filterMap.mp hbody
    split at hid
    case isTrue hfunction =>
        have hmem := mem_of_child? hid
        exact ⟨(hC.admits (h.parent?_of_mem hmem)).body hfunction (role?_of_child? hid),
          h.child_lt hmem⟩
    case isFalse => cases hid

theorem keepsOrder_combineDeclarations (h : s.Ordered) : KeepsOrder combineDeclarations s := by
  rw [KeepsOrder, combineDeclarations, gives_bind, gives_get]
  refine keepsOrder_sweep h fun body hbody s' hs hkept => ?_
  obtain ⟨hkind, hlt⟩ := h.kind_body hbody
  exact Declarations.keepsOrder_visitBody hs (by rw [hkept.kind_eq hlt, hkind]) (hkept.lt hlt)

/-! ### Removal of declarations -/

namespace Unused

variable {unused : NameSet} {expression declaration statement : NodeId}

theorem keepsOrder_remove (h : s.Ordered) :
    KeepsOrder (do modify (Store.remove id); return true) s := by
  obtain ⟨C, hC⟩ := h.arranged
  exact KeepsForest.keepsOrder h.toForest.remove hC.remove.rearranged

theorem keepsOrder_removeTrailingParams (h : s.Ordered) :
    KeepsOrder (removeTrailingParams unused id) s := by
  rw [KeepsOrder, removeTrailingParams, gives_bind, gives_get]
  split
  · exact keepsOrder_pure h
  · exact keepsOrder_sweep h fun _ _ _ hs _ => keepsOrder_remove hs

theorem keepsOrder_removeFunctionName (h : s.Ordered) (hkind : s.kind id = .function) :
    KeepsOrder (removeFunctionName unused id) s := by
  obtain ⟨C, hC⟩ := h.arranged
  refine (keepsForest_removeFunctionName h.toForest).keepsOrder ?_
  rw [KeepsPlan, removeFunctionName, gives_bind, gives_get]
  refine gives_ite (fun _ => .refl h.arranged) fun _ => ?_
  split
  · refine gives_ite (fun _ => ?_) fun _ => .refl h.arranged
    rw [gives_bind, gives_modify]
    exact (hC.setPayload .none (by rw [hkind]; rfl)).rearranged
  · exact .refl h.arranged

/-- An expression becomes a statement, which has no role. -/
theorem made_demote (h : Planned C s) (hexpression : Value C s X.idle expression) :
    Gives (demote expression) s fun statement s' =>
      (∃ C', Made C s .semicolon X C' s' statement) ∧ s'.role? statement = none := by
  rw [demote, gives_bind, gives_get]
  rcases hwrap : s.wrapExpression expression with ⟨statement, s₁⟩
  obtain ⟨C', hmade⟩ := h.made_wrapExpression hexpression hwrap
  have hrole : s₁.role? statement = none := by
    rw [wrapExpression] at hwrap
    obtain ⟨rfl, rfl⟩ := Prod.mk.inj hwrap
    have hne : s.size ≠ expression := Nat.ne_of_gt hexpression.lt
    rw [role?, appendAs, setRole, head_modifyHead, if_neg fun heq => hne heq.1, append_eq,
      head_attach]
    exact congrArg Head.role ((head_add _).trans (if_pos rfl))
  dsimp only
  split
  · rw [gives_bind, gives_set, gives_pure]
    refine ⟨⟨C', hmade.trans (hmade.planned.setParenthesized true)⟩, ?_⟩
    rw [role?, setParenthesized, head_modifyHead]
    split
    · exact hrole
    · exact hrole
  · rw [gives_bind, gives_set, gives_pure]
    exact ⟨⟨C', hmade⟩, hrole⟩

/-- Before and behind a list of declarations, what was in it is allowed. -/
theorem extends_removeDeclaration {count index : Nat} (h : Planned C s) (hs : s.Forest)
    (hlisted : s.Listed list) (hlist : s.kind list = .varList)
    (hdeclaration : Movable {list} s declaration) (hkind : s.kind declaration = .declaration)
    (hle : C declaration ≤ (C list).idle) :
    Gives (removeDeclaration unused list count (index, declaration)) s fun _ s' =>
      (∃ C', Extends C s C' s') ∧ s'.Listed list := by
  have hlt : list < s.size := lt_of_kind (by simp [hlist])
  have hremove :
      (∃ C', Extends C s C' (s.remove declaration)) ∧ (s.remove declaration).Listed list :=
    ⟨⟨C, h.remove⟩, hlisted.remove⟩
  have hsame : (∃ C', Extends C s C' s) ∧ s.Listed list := ⟨⟨C, .refl h⟩, hlisted⟩
  rw [removeDeclaration, gives_bind, gives_get]
  refine gives_ite (fun _ => hsame) fun _ => ?_
  split
  case h_1 => exact hremove
  case h_2 initializer hinitializer =>
      refine gives_ite (fun _ => hremove) fun _ => gives_ite (fun _ => hsame) fun _ => ?_
      have hvalue : Value C s (C list).idle initializer :=
        (h.value_of_child? hs.toLinked (by rw [hkind]; rfl) rfl hinitializer).mono
          (Reach.idle_mono (Y := (C list).idle) hle)
      rw [gives_bind]
      refine ((gives_demote hs (hdeclaration.of_child hs (mem_of_child? hinitializer))).and
        (made_demote h hvalue)).mono ?_
      rintro statement s₁ ⟨hs₁, ⟨C₁, hmade⟩, hrole⟩
      refine gives_ite (fun _ => ?_) fun _ => ?_
      · -- The statement takes the place of the list, which has no parent any more.
        have hreplaceable : s.Replaceable list := replaceable_of_kind (by rw [hlist]; rfl)
        have hreplace := hmade.replace (le_refl _) hreplaceable.not_isFixed
          (by simp [hreplaceable.not_isExpression])
        rw [gives_bind, gives_modify, gives_bind, gives_modify, gives_pure]
        refine ⟨⟨C₁, hreplace.trans hreplace.planned.dropRole⟩, Listed.setRole ?_ none⟩
        intro p hp
        have hne : list ≠ statement := Nat.ne_of_lt (hlt.trans_le hs₁.size_le_new)
        rw [parent?_replace hne hmade.lt_new, if_neg hne, if_pos rfl] at hp
        cases hp
      · have hlisted₁ : s₁.Listed list := by
          intro p hp
          rw [hs₁.toSteady.parent?_eq rfl] at hp
          rw [hmade.kind_eq (h.parent_lt hp)]
          exact hlisted p hp
        have hle₁ : C₁ statement ≤ C₁ list := by rw [hmade.plan_new, hmade.plan_eq list hlt]
        have hlistable : Listable C₁ s₁ statement := by
          intro role hsome
          rw [hrole] at hsome
          cases hsome
        -- Wherever the statement goes, the declaration goes away.
        have hplace : ∀ s₂, Extends C₁ s₁ C₁ s₂ → s₂.Listed list →
            (∃ C', Extends C s C' ((s₂.remove declaration).setRole statement none)) ∧
              ((s₂.remove declaration).setRole statement none).Listed list := by
          intro s₂ hs₂ hlisted₂
          have hremove₂ : Extends C₁ s₂ C₁ (s₂.remove declaration) := hs₂.planned.remove
          exact ⟨⟨C₁, (hmade.toExtends.trans hs₂).trans
            (hremove₂.trans hremove₂.planned.dropRole)⟩, hlisted₂.remove.setRole none⟩
        dsimp only
        refine gives_ite (fun _ => ?_) fun _ => ?_
        · obtain ⟨hinsert, hkept⟩ := hmade.planned.insertBefore hlisted₁ hmade.lt_new hle₁ hlistable
          exact hplace _ hinsert (hkept list hlisted₁)
        · obtain ⟨hinsert, hkept, -⟩ := hmade.planned.insertAfter hlisted₁
            (hmade.planned.roomy hle₁) hmade.lt_new (le_refl _) hlistable
          exact hplace _ hinsert (hkept list hlisted₁)

theorem keepsPlan_removeDeclarations (h : s.Ordered) (hlisted : s.Listed list)
    (hlist : s.kind list = .varList) : KeepsPlan (removeDeclarations unused list) s := by
  obtain ⟨C, hC⟩ := h.arranged
  have hlt : list < s.size := lt_of_kind (by simp [hlist])
  have hdeclarations : ∀ d ∈ s.children list, s.kind d = .declaration ∧ C d ≤ (C list).idle := by
    intro d hd
    refine ⟨?_, hC.le_of_mem h.toLinked (by rw [hlist]; rfl) hd⟩
    exact (hC.admits (h.parent?_of_mem hd)).declaration hlist
  rw [KeepsPlan, removeDeclarations, gives_bind, gives_get]
  dsimp only
  rw [gives_bind]
  refine (gives_sweep (I := fun numbered s' =>
    (Removing list (s.children list).length numbered s' ∧
      ∀ d ∈ numbered.map Prod.snd, d ∈ s.children list) ∧
    (∃ C', Extends C s C' s') ∧ s'.Listed list)
    ⟨⟨removing_children h.toForest hlt, ?_⟩, ⟨C, .refl hC⟩, hlisted⟩ ?_).mono ?_
  · rw [map_snd_numbered]
    exact fun _ hd => hd
  · rintro ⟨index, declaration⟩ rest s' ⟨⟨hremoving, hmem⟩, ⟨C', hs⟩, hlisted⟩
    rw [List.map_cons, List.forall_mem_cons] at hmem
    obtain ⟨hkind, hle⟩ := hdeclarations declaration hmem.1
    have hdeclarationLt := h.child_lt hmem.1
    have hmovable := hremoving.movable declaration List.mem_cons_self
    have hle' : C' declaration ≤ (C' list).idle := by
      rw [hs.plan_eq _ hdeclarationLt, hs.plan_eq _ hlt]
      exact hle
    refine (hremoving.gives.and (extends_removeDeclaration hs.planned hremoving.forest hlisted
      ((hs.kind_eq hlt).trans hlist) hmovable ((hs.kind_eq hdeclarationLt).trans hkind)
      hle')).mono ?_
    rintro changed s'' ⟨hremoving', ⟨C'', hs'⟩, hlisted'⟩
    exact ⟨⟨hremoving', hmem.2⟩, ⟨C'', hs.trans hs'⟩, hlisted'⟩
  · rintro changed s' ⟨-, ⟨C', hs⟩, -⟩
    have hreplaceable : s.Replaceable list := replaceable_of_kind (by rw [hlist]; rfl)
    refine gives_ite (fun _ => ?_) fun _ => hs.rearranged
    rw [gives_bind, gives_get]
    refine gives_ite (fun _ => ?_) fun _ => hs.rearranged
    exact hs.rearranged.trans (hs.planned.removeStatement (hreplaceable.of_extends hs))

theorem keepsOrder_removeAt {topLevel : Bool} {body : NodeId} (h : s.Ordered) :
    KeepsOrder (removeAt unused topLevel body id) s := by
  obtain ⟨C, hC⟩ := h.arranged
  refine (keepsForest_removeAt h.toForest).keepsOrder ?_
  rw [KeepsPlan, removeAt, gives_bind, gives_get]
  refine gives_ite (fun _ => .refl h.arranged) fun _ => ?_
  split
  case h_1 hkind =>
      refine gives_ite (fun hcase => ?_) fun _ => .refl h.arranged
      -- A declared function is no value.
      have hreplaceable : s.Replaceable id := by
        simp only [Bool.and_eq_true, Tree.isDeclaredFunction, Bool.or_eq_true, beq_iff_eq] at hcase
        refine ⟨by rw [hkind]; rfl, ?_⟩
        rw [Head.isExpression, show (s.head id).kind = _ from hkind]
        rcases hcase.1.2 with hform | hform <;> rw [hform] <;> rfl
      rw [gives_bind, gives_modify]
      exact hC.removeStatement hreplaceable
  case h_2 hkind =>
      refine gives_ite (fun hin => ?_) fun _ => .refl h.arranged
      exact keepsPlan_removeDeclarations h (listed_of_inStatementList hin) hkind
  case h_3 => exact .refl h.arranged

theorem keepsOrder_removeFromBody (h : s.Ordered) : KeepsOrder (removeFromBody id) s := by
  rw [KeepsOrder, removeFromBody, gives_bind, gives_get]
  split
  · exact keepsOrder_pure h
  case h_2 scope _ =>
      refine gives_ite (fun _ => keepsOrder_pure h) fun _ => ?_
      refine gives_ite (fun hkind => ?_) fun _ =>
        keepsOrder_sweep h fun _ _ _ hs _ => keepsOrder_removeAt hs
      have hlt : id < s.size := lt_of_kind (by simp [hkind])
      refine gives_ite (fun _ => (keepsOrder_pure h).bind fun params s₁ hs₁ hkept => ?_) fun _ =>
        (keepsOrder_removeTrailingParams h).bind fun params s₁ hs₁ hkept => ?_
      -- The same is left whether or not there were parameters to remove.
      all_goals
        have hkind₁ : s₁.kind id = .function := by rw [hkept.kind_eq hlt, hkind]
        refine (keepsOrder_removeFunctionName hs₁ hkind₁).bind fun name s₂ hs₂ _ => ?_
        rw [KeepsOrder, gives_bind, gives_get]
        split
        · exact keepsOrder_pure hs₂
        · rw [gives_bind]
          exact keepsOrder_sweep hs₂ fun _ _ _ hs _ => keepsOrder_removeAt hs

theorem keepsOrder_round (h : s.Ordered) : KeepsOrder round s := by
  obtain ⟨C, hC⟩ := h.arranged
  have hscan : s.Rearranged s.scanTree := hC.scan.rearranged
  rw [KeepsOrder, round, gives_bind, gives_modify, gives_bind, gives_get]
  refine (keepsOrder_sweep ⟨h.toForest.scan, hscan.arranged⟩
    fun _ _ _ hs _ => keepsOrder_removeFromBody hs).mono fun _ _ hs => ?_
  exact ⟨hs.1, hscan.trans hs.2⟩

end Unused

end ScriptMin
