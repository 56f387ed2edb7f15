import ScriptMin.Proofs.Pass.DeclarationForests
import ScriptMin.Proofs.Pass.Editing

/-!
The passes that move and remove declarations keep a store sound. Lists of declarations ask nothing
of their children, and a declaration that becomes an assignment gives its pattern and its
initializer away, which are in no place of their own there.
-/

namespace ScriptMin

open Store Edit

variable {s s' : Store} {id list body declaration : NodeId}

/-! ### Combination of declarations -/

namespace Declarations

variable {collector : NodeId} {declared : NameSet}

theorem keeps_mergeInto {previous : NodeId} {rest : List NodeId} (h : s.Sound) :
    Keeps (mergeInto previous rest) s := by
  induction rest generalizing s previous with
  | nil => exact keeps_pure h
  | cons current rest ih =>
      rw [Keeps, mergeInto, gives_bind, gives_get]
      split
      case isFalse => exact ih h
      case isTrue hkinds =>
          have hprevious : previous < s.size := lt_of_kind (by simp [hkinds.1])
          have hcurrent : s.Portable current := h.portable_of_kind (by rw [hkinds.2]; rfl)
          have hmove : s.Evolves (s.moveChildren current previous) :=
            evolves_moveChildren h (by rw [hkinds.2]; rfl) (by rw [hkinds.1]; rfl) hprevious
          have hs := hmove.trans
            (evolves_remove hmove.sound (hcurrent.of_evolves hmove).not_key)
          rw [gives_bind, gives_modify, gives_bind]
          exact (ih hs.sound).mono fun _ _ hs' => hs.trans hs'

theorem keeps_mergeNeighbours (h : s.Sound) : Keeps (mergeNeighbours list) s := by
  rw [Keeps, mergeNeighbours, gives_bind, gives_get]
  split
  · exact keeps_pure h
  · exact keeps_mergeInto h

theorem keeps_mergeBody (h : s.Sound) : Keeps (mergeBody body) s := by
  rw [Keeps, mergeBody, gives_bind, gives_get]
  exact keeps_sweep h fun _ _ _ hs => keeps_mergeNeighbours hs.sound

/-! ### Collecting names and assigning initializers -/

theorem keeps_collect (h : s.Sound) (hcollector : s.kind collector = .varList) (name : String) :
    Keeps (collect collector declared name) s := by
  rw [Keeps, collect]
  refine gives_ite (fun _ => .refl h) fun _ => ?_
  rw [gives_bind, gives_get]
  rcases hadd : s.add { kind := .declaration, span := s.span collector, payload := .text name }
    with ⟨new, s₁⟩
  obtain ⟨hs, hnew, -⟩ := evolves_of_add h (Head.complete_of_kind (by simp) (by simp) rfl rfl) hadd
  have hlt : collector < s.size := lt_of_kind (by simp [hcollector])
  refine hs.trans (evolves_append hs.sound ?_ (hs.lt hlt) hnew)
  rw [hs.kind_eq collector hlt, hcollector]
  rfl

theorem keeps_collectAll (h : s.Sound) (hcollector : s.kind collector = .varList)
    (names : List String) : Keeps (collectAll collector names declared) s := by
  induction names generalizing s declared with
  | nil => exact keeps_pure h
  | cons name rest ih =>
      refine (keeps_collect h hcollector name).bind fun _ s₁ hs₁ => ih hs₁.sound ?_
      rw [hs₁.kind_eq collector (lt_of_kind (by simp [hcollector])), hcollector]

theorem evolves_target (h : s.Sound) :
    Gives (target declaration) s fun target s' => s.Evolves s' ∧ s'.Portable target := by
  rw [target, gives_bind, gives_get]
  split
  case h_1 pattern hpattern => exact ⟨.refl h, h.portable_of_child? hpattern⟩
  case h_2 =>
      rcases hadd : s.add
        { kind := .identifier, span := s.span declaration, payload := .text (s.text declaration) }
        with ⟨name, s₁⟩
      obtain ⟨hs, hnew, -⟩ := evolves_of_add h ⟨fun _ => rfl, by simp, by simp [Tree.isAccessor],
        by simp, by simp⟩ hadd
      exact ⟨hs, hnew⟩

theorem evolves_toAssignment (h : s.Sound) (hcollector : s.kind collector = .varList) :
    Gives (toAssignment collector declaration declared) s fun result s' =>
      s.Evolves s' ∧ ∀ assign ∈ result.2, s'.Portable assign := by
  rw [toAssignment, gives_bind, gives_get, gives_bind]
  refine (keeps_collectAll h hcollector _).mono fun declared' s₁ hs₁ => ?_
  rw [gives_bind]
  refine (evolves_target hs₁.sound).mono ?_
  rintro target s₂ ⟨hs₂, htarget⟩
  have hs₁₂ := hs₁.trans hs₂
  rw [gives_bind, gives_get]
  split
  case h_1 => exact ⟨hs₁₂, by simp⟩
  case h_2 initializer hinitializer =>
      have hvalue := hs₂.sound.portable_of_child? hinitializer
      rcases hadd : s₂.add { kind := .assign, span := s₂.span declaration } with ⟨assign, s₃⟩
      obtain ⟨hs₃, hassign, hkind, -⟩ :=
        evolves_of_add hs₂.sound (Head.complete_of_kind (by simp) (by simp) rfl rfl) hadd
      have hbare : (none : Option Role) ≠ some .params ∧ (none : Option Role) ≠ some .statements := by
        simp
      have hleft := evolves_append_setRole hs₃.sound hbare (by rw [hkind]; rfl) hassign.lt
        (htarget.of_evolves hs₃)
      have hkind' := (hleft.kind_eq assign hassign.lt).trans hkind
      have hright := evolves_append_setRole hleft.sound hbare (by rw [hkind']; rfl)
        (hleft.lt hassign.lt) ((hvalue.of_evolves hs₃).of_evolves hleft)
      have hboth := hleft.trans hright
      rw [gives_bind, gives_set, gives_pure]
      refine ⟨hs₁₂.trans (hs₃.trans hboth), ?_⟩
      rintro _ ⟨⟩
      exact hassign.of_evolves hboth

theorem evolves_toAssignments {declarations : List NodeId} (h : s.Sound)
    (hcollector : s.kind collector = .varList) :
    Gives (toAssignments collector declarations declared) s fun result s' =>
      s.Evolves s' ∧ ∀ assign ∈ result.2, s'.Portable assign := by
  induction declarations generalizing s declared with
  | nil => exact ⟨.refl h, List.forall_mem_nil _⟩
  | cons declaration rest ih =>
      rw [toAssignments, gives_bind]
      refine (evolves_toAssignment h hcollector).mono ?_
      rintro ⟨declared', assign⟩ s₁ ⟨hs₁, hassign⟩
      have hcollector₁ : s₁.kind collector = .varList := by
        rw [hs₁.kind_eq collector (lt_of_kind (by simp [hcollector])), hcollector]
      rw [gives_bind]
      refine (ih hs₁.sound hcollector₁).mono ?_
      rintro ⟨declared'', assigns⟩ s₂ ⟨hs₂, hassigns⟩
      refine ⟨hs₁.trans hs₂, fun a ha => ?_⟩
      rcases List.mem_append.mp ha with ha | ha
      · exact (hassign a (Option.mem_toList.mp ha)).of_evolves hs₂
      · exact hassigns a ha

theorem evolves_sequence {span : Span} {assigns : List NodeId} (h : s.Sound)
    (hassigns : ∀ a ∈ assigns, s.Portable a) :
    Gives (sequence span assigns) s fun result s' =>
      s.Evolves s' ∧ ∀ expression ∈ result, s'.Portable expression := by
  rw [sequence.eq_def]
  split
  · exact ⟨.refl h, by simp⟩
  case h_2 assign =>
      refine ⟨.refl h, ?_⟩
      rintro _ ⟨⟩
      exact hassigns assign (List.mem_singleton_self _)
  case h_3 =>
      rw [gives_bind, gives_get]
      rcases hadd : s.add { kind := .comma, span } with ⟨comma, s₁⟩
      obtain ⟨hs, hcomma, hkind, -⟩ :=
        evolves_of_add h (Head.complete_of_kind (by simp) (by simp) rfl rfl) hadd
      have hfold : s₁.Evolves (assigns.foldl (fun s a => s.append comma a) s₁) := by
        refine evolves_foldl _ assigns hs.sound fun a ha s' hs' => ?_
        refine evolves_append hs'.sound ?_ (hs'.lt hcomma.lt)
          (((hassigns a ha).of_evolves hs).of_evolves hs')
        rw [hs'.kind_eq comma hcomma.lt, hkind]
        rfl
      refine ⟨hs.trans hfold, ?_⟩
      rintro _ ⟨⟩
      exact hcomma.of_evolves hfold

theorem keeps_assignList (h : s.Sound) (hlist : s.kind list = .varList)
    (hcollector : s.kind collector = .varList) :
    Keeps (assignList collector declared list) s := by
  rw [Keeps, assignList, gives_bind, gives_get]
  dsimp only
  rw [gives_bind, gives_get, gives_bind]
  refine (evolves_toAssignments h hcollector).mono ?_
  rintro ⟨declared', assigns⟩ s₁ ⟨hs₁, hassigns⟩
  rw [gives_bind]
  refine (evolves_sequence hs₁.sound hassigns).mono ?_
  rintro expression s₂ ⟨hs₂, hexpression⟩
  have hs := hs₁.trans hs₂
  have hkind : ∀ {s'}, s.Evolves s' → s'.kind list = .varList := fun hs' =>
    (hs'.kind_eq list (lt_of_kind (by simp [hlist]))).trans hlist
  rw [gives_bind, gives_get]
  dsimp only
  split
  case h_1 expression =>
      have hvalue : s₂.Portable expression := hexpression expression rfl
      split
      · rw [gives_bind, gives_set, gives_pure]
        exact hs.trans (evolves_replace_of_kind hs.sound (by rw [hkind hs]; rfl)
          (by simp [hkind hs]) (by simp [hkind hs]) hvalue)
      · rcases hadd : s₂.add { kind := .semicolon, span := s.span list } with ⟨statement, s₃⟩
        obtain ⟨hs₃, hstatement, hsemicolon, -⟩ :=
          evolves_of_add hs.sound (Head.complete_of_kind (by simp) (by simp) rfl rfl) hadd
        have happend := evolves_appendAs hs₃.sound .expression (by simp)
          (by rw [hsemicolon]; rfl) hstatement.lt (hvalue.of_evolves hs₃)
        have hs₄ := (hs.trans hs₃).trans happend
        dsimp only
        rw [gives_bind, gives_set, gives_pure]
        exact hs₄.trans (evolves_replace_of_kind hs₄.sound (by rw [hkind hs₄]; rfl)
          (by simp [hkind hs₄]) (by simp [hkind hs₄]) (hstatement.of_evolves happend))
  case h_2 =>
      rw [gives_bind, gives_set, gives_pure]
      refine hs.trans ?_
      split
      · exact evolves_remove hs.sound (hs.sound.portable_of_kind (by rw [hkind hs]; rfl)).not_key
      · exact evolves_removeStatement hs.sound (by rw [hkind hs]; rfl) (by simp [hkind hs])
          (by simp [hkind hs])

theorem keeps_assignLists {lists : List NodeId} (h : s.Sound)
    (hlists : ∀ list ∈ lists, s.kind list = .varList) (hcollector : s.kind collector = .varList) :
    Keeps (assignLists collector lists declared) s := by
  induction lists generalizing s declared with
  | nil => exact keeps_pure h
  | cons list rest ih =>
      rw [List.forall_mem_cons] at hlists
      refine (keeps_assignList h hlists.1 hcollector).bind fun declared' s' hs => ?_
      have hstays : ∀ {id}, s.kind id = .varList → s'.kind id = .varList := fun hid =>
        (hs.kind_eq _ (lt_of_kind (by simp [hid]))).trans hid
      exact ih hs.sound (fun l hl => hstays (hlists.2 l hl)) (hstays hcollector)

theorem keeps_prune {initialized : NameSet} {declarations : List NodeId} {seen : NameSet}
    (h : s.Sound) (hdeclarations : ∀ d ∈ declarations, s.Portable d) :
    Keeps (prune initialized declarations seen) s := by
  induction declarations generalizing s seen with
  | nil => exact keeps_pure h
  | cons declaration rest ih =>
      rw [List.forall_mem_cons] at hdeclarations
      rw [Keeps, prune, gives_bind, gives_get]
      refine gives_ite (fun _ => ih h hdeclarations.2) fun _ => gives_ite (fun _ => ?_) fun _ =>
        ih h hdeclarations.2
      have hs := evolves_remove h hdeclarations.1.not_key
      rw [gives_bind, gives_modify, gives_bind]
      exact (ih hs.sound fun d hd => (hdeclarations.2 d hd).of_evolves hs).mono
        fun _ _ hs' => hs.trans hs'

theorem keeps_pruneList (h : s.Sound) (hlist : s.kind list = .varList) :
    Keeps (pruneList list) s := by
  rw [Keeps, pruneList, gives_bind, gives_get]
  exact keeps_prune h fun d hd => h.portable_of_mem hd (by simp [hlist])

/-- A list of declarations moves into the head of the loop behind it. -/
theorem keeps_moveIntoLoop (h : s.Sound) (hlist : s.kind list = .varList) :
    Keeps (moveIntoLoop list) s := by
  rw [Keeps, moveIntoLoop, gives_bind, gives_get]
  dsimp only
  split
  case h_2 => exact .refl h
  case h_1 next hnext =>
      refine gives_ite (fun hloop => ?_) fun _ => .refl h
      have hportable : s.Portable list := h.portable_of_kind (by rw [hlist]; rfl)
      have hnextLt : next < s.size := lt_of_kind (by simp [hloop.1])
      have hinsert := evolves_insert h 0 (by rw [hloop.1]; rfl) hnextLt hportable
      rw [gives_set]
      refine hinsert.trans (evolves_setRole hinsert.sound (by simp) fun p hp => ?_)
      rw [parent?_insert hportable.lt, if_pos rfl, Option.some_inj] at hp
      rw [← hp, hinsert.kind_eq next hnextLt, hloop.1]
      rfl

theorem evolves_collector {first : NodeId} (h : s.Sound) (hbody : s.kind body = .script)
    (hlt : body < s.size) (hfirst : s.kind first = .varList) :
    Gives (Declarations.collector body first) s fun list s' =>
      s.Evolves s' ∧ s'.kind list = .varList := by
  rw [Declarations.collector, gives_bind, gives_get]
  refine gives_ite (fun _ => ?_) fun _ => ⟨.refl h, hfirst⟩
  rcases hadd : s.add { kind := .varList, span := s.span body } with ⟨new, s₁⟩
  obtain ⟨hs, hnew, hkind, -⟩ :=
    evolves_of_add h (Head.complete_of_kind (by simp) (by simp) rfl rfl) hadd
  have hinsert : s₁.Evolves (s₁.insert body 0 new) := by
    refine evolves_insert hs.sound 0 ?_ (hs.lt hlt) hnew
    rw [hs.kind_eq body hlt, hbody]
    rfl
  exact ⟨hs.trans hinsert, (hinsert.kind_eq new hnew.lt).trans hkind⟩

theorem keeps_combineBody (h : s.Sound) (hbody : s.kind body = .script) (hlt : body < s.size) :
    Keeps (combineBody body) s := by
  rw [Keeps, combineBody, gives_bind, gives_get]
  split
  · exact keeps_pure h
  case h_2 first others hlists =>
      have hkinds : ∀ list ∈ first :: others, s.kind list = .varList := by
        intro list hlist
        rw [← hlists] at hlist
        exact eq_of_beq (List.mem_filter.mp hlist).2
      rw [List.forall_mem_cons] at hkinds
      dsimp only
      refine gives_ite (fun _ => gives_ite (fun _ => keeps_pure h) fun _ =>
        keeps_pruneList h hkinds.1) fun _ => ?_
      rw [gives_bind]
      refine (evolves_collector h hbody hlt hkinds.1).mono ?_
      rintro list s₁ ⟨hs₁, hlist⟩
      have hstays : ∀ {s'}, s₁.Evolves s' → s'.kind list = .varList := fun hs' =>
        (hs'.kind_eq list (lt_of_kind (by simp [hlist]))).trans hlist
      have hothers : ∀ other ∈ others.filter fun list => !isIterator s list,
          s₁.kind other = .varList := by
        intro other hother
        have hkind := hkinds.2 other (List.mem_of_mem_filter hother)
        rw [hs₁.kind_eq other (lt_of_kind (by simp [hkind])), hkind]
      rw [gives_bind, gives_get]
      refine Gives.mono (Keeps.bind (keeps_assignLists hs₁.sound hothers hlist)
        fun _ s₂ hs₂ => ?_) fun _ _ hs => hs₁.trans hs
      refine (keeps_pruneList hs₂.sound (hstays hs₂)).bind fun _ s₃ hs₃ => ?_
      refine (keeps_moveIntoLoop hs₃.sound (hstays (hs₂.trans hs₃))).bind fun _ s₄ hs₄ => ?_
      exact keeps_pure hs₄.sound

theorem keeps_visitBody (h : s.Sound) (hbody : s.kind body = .script) (hlt : body < s.size) :
    Keeps (visitBody body) s := by
  refine (keeps_mergeBody h).bind fun _ s₁ hs₁ => ?_
  have hbody₁ : s₁.kind body = .script := by rw [hs₁.kind_eq body hlt, hbody]
  refine (keeps_combineBody hs₁.sound hbody₁ (hs₁.lt hlt)).bind fun _ s₂ hs₂ => ?_
  exact (keeps_mergeBody hs₂.sound).bind fun _ s₃ hs₃ => keeps_pure hs₃.sound

end Declarations

theorem keeps_combineDeclarations (h : s.Sound) : Keeps combineDeclarations s := by
  rw [Keeps, combineDeclarations, gives_bind, gives_get]
  refine keeps_sweep h fun body hbody s' hs => ?_
  -- Bodies are scripts, that of the whole store and those of functions.
  obtain ⟨hkind, hlt⟩ : s.kind body = .script ∧ body < s.size := by
    rcases List.mem_cons.mp hbody with rfl | hbody
    · exact ⟨h.root_kind, h.root_lt⟩
    · obtain ⟨id, -, hid⟩ := List.mem_filterMap.mp hbody
      split at hid
      case isTrue hfunction => exact ⟨h.kind_body hfunction hid, h.child_lt (mem_of_child? hid)⟩
      case isFalse => cases hid
  exact Declarations.keeps_visitBody hs.sound (by rw [hs.kind_eq body hlt, hkind]) (hs.lt hlt)

/-! ### Nodes whose places ask for nothing -/

namespace Store

variable {anchor child expression statement : NodeId}

/-- The kind of the parent of a node, if it has one, asks for nothing. -/
def Unasked (s : Store) (id : NodeId) : Prop :=
  ∀ p, s.parent? id = some p → (s.kind p).isRigid = false

theorem Unasked.of_evolves (hs : s.Evolves s')
    (h : ∀ p, s'.parent? id = some p → p < s.size ∧ (s.kind p).isRigid = false) :
    s'.Unasked id := by
  intro p hp
  obtain ⟨hlt, hrigid⟩ := h p hp
  rwa [hs.kind_eq p hlt]

theorem Unasked.not_readsRoles (h : s.Unasked id) :
    ∀ p, s.parent? id = some p → (s.kind p).readsRoles = false :=
  fun p hp => Kind.not_readsRoles_of_not_isRigid (h p hp)

theorem Unasked.remove (h : s.Unasked id) (hs : s.Sound) (hchild : s.Portable child) :
    (s.remove child).Unasked id := by
  refine .of_evolves (evolves_remove hs hchild.not_key) fun p hp => ?_
  rw [Store.remove, parent?_setRole, parent?_detach] at hp
  split at hp
  · cases hp
  · exact ⟨hs.parent_lt hp, h p hp⟩

/-- Where a node is put below a parent that asks for nothing, all nodes keep asking for nothing,
and the node starts to. -/
theorem evolves_insert_unasked {p : NodeId} (h : s.Sound) (index : Nat)
    (hrigid : (s.kind p).isRigid = false) (hlt : p < s.size) (hchild : s.Portable child) :
    s.Evolves (s.insert p index child) ∧
      ∀ other, s.Unasked other → (s.insert p index child).Unasked other := by
  have hinsert := evolves_insert h index hrigid hlt hchild
  refine ⟨hinsert, fun other hother => .of_evolves hinsert fun q hq => ?_⟩
  rw [parent?_insert hchild.lt] at hq
  split at hq
  · cases hq
    exact ⟨hlt, hrigid⟩
  · exact ⟨h.parent_lt hq, hother q hq⟩

theorem evolves_insertBefore_unasked (h : s.Sound) (hanchor : s.Unasked anchor)
    (hchild : s.Portable child) :
    s.Evolves (s.insertBefore anchor child) ∧
      ∀ other, s.Unasked other → (s.insertBefore anchor child).Unasked other := by
  rw [insertBefore]
  split
  case h_1 p index hp _ =>
      exact evolves_insert_unasked h index (hanchor p hp) (h.parent_lt hp) hchild
  case h_2 => exact ⟨.refl h, fun _ => id⟩

theorem evolves_insertAfter_unasked (h : s.Sound) (hanchor : s.Unasked anchor)
    (hchild : s.Portable child) :
    s.Evolves (s.insertAfter anchor child) ∧
      ∀ other, s.Unasked other → (s.insertAfter anchor child).Unasked other := by
  rw [insertAfter]
  split
  case h_1 p index hp _ =>
      exact evolves_insert_unasked h (index + 1) (hanchor p hp) (h.parent_lt hp) hchild
  case h_2 => exact ⟨.refl h, fun _ => id⟩

theorem unasked_of_wrapExpression (h : s.Sound) (hexpression : s.Portable expression)
    (hwrap : s.wrapExpression expression = (statement, s')) :
    s.size ≤ statement ∧ s'.Unasked statement ∧
      ∀ other, s.Unasked other → s'.Unasked other := by
  rcases hadd : s.add { kind := .semicolon, span := s.span expression } with ⟨new, s₁⟩
  obtain ⟨hs, hnew, hkind, hparent, -⟩ :=
    evolves_of_add h (Head.complete_of_kind (by simp) (by simp) rfl rfl) hadd
  have hexpression₁ := hexpression.of_evolves hs
  have hrigid : (s₁.kind new).isRigid = false := by rw [hkind]; rfl
  have happend := evolves_appendAs hs.sound .expression (by simp) hrigid hnew.lt hexpression₁
  have hparent? : ∀ other, (s₁.appendAs new .expression expression).parent? other =
      if other = expression then some new else s₁.parent? other := by
    intro other
    rw [appendAs, parent?_setRole, parent?_append hexpression₁.lt]
  -- The expression is below the statement now, and all others are where they were.
  have hkept : ∀ other, s₁.Unasked other →
      (s₁.appendAs new .expression expression).Unasked other := by
    refine fun other hother => .of_evolves happend fun p hp => ?_
    rw [hparent?] at hp
    split at hp
    · cases hp
      exact ⟨hnew.lt, hrigid⟩
    · exact ⟨hs.sound.parent_lt hp, hother p hp⟩
  rw [wrapExpression, hadd] at hwrap
  obtain ⟨rfl, rfl⟩ := Prod.mk.inj hwrap
  refine ⟨(congrArg Prod.fst hadd).le, hkept _ ?_, fun other hother => hkept other ?_⟩
  · intro p hp
    rw [hparent] at hp
    cases hp
  · refine .of_evolves hs fun p hp => ?_
    rw [show s₁ = (s.add _).2 from (congrArg Prod.snd hadd).symm, parent?_add] at hp
    exact ⟨h.parent_lt hp, hother p hp⟩

end Store

/-! ### Removal of declarations -/

namespace Unused

variable {unused : NameSet} {expression : NodeId}

theorem keeps_removeTrailingParams (h : s.Sound) :
    Keeps (removeTrailingParams unused id) s := by
  rw [Keeps, removeTrailingParams, gives_bind, gives_get]
  split
  · exact keeps_pure h
  case h_2 params hparams =>
      have hlist : s.kind params = .list :=
        (h.formed params).complete.params (role?_of_child? hparams)
      refine keeps_sweep h fun p hp s' hs => ?_
      have hmem : p ∈ s.children params := by
        rw [← List.mem_reverse]
        exact (List.takeWhile_prefix _).subset hp
      have hportable := (h.portable_of_mem hmem (by simp [hlist])).of_evolves hs
      rw [Keeps, gives_bind, gives_modify, gives_pure]
      exact evolves_remove hs.sound hportable.not_key

theorem keeps_removeFunctionName (h : s.Sound) (hkind : s.kind id = .function) :
    Keeps (removeFunctionName unused id) s := by
  rw [Keeps, removeFunctionName, gives_bind, gives_get]
  refine gives_ite (fun _ => .refl h) fun _ => ?_
  split
  · refine gives_ite (fun _ => ?_) fun _ => .refl h
    rw [gives_bind, gives_modify]
    exact evolves_setPayload h .none (by simp [hkind])
  · exact .refl h

/-- An expression becomes a statement, and what asked for nothing still does not. -/
theorem evolves_demote (h : s.Sound) (hexpression : s.Portable expression) :
    Gives (demote expression) s fun statement s' =>
      (s.Evolves s' ∧ s'.Portable statement) ∧ s.size ≤ statement ∧ s'.Unasked statement ∧
        ∀ other, s.Unasked other → s'.Unasked other := by
  rw [demote, gives_bind, gives_get]
  rcases hwrap : s.wrapExpression expression with ⟨statement, s₁⟩
  obtain ⟨hs, hstatement⟩ := evolves_of_wrapExpression h hexpression hwrap
  obtain ⟨hsize, hnew, hkept⟩ := unasked_of_wrapExpression h hexpression hwrap
  dsimp only
  split
  case h_1 literal _ =>
      rw [gives_bind, gives_set, gives_pure]
      have hparens : s₁.Evolves (s₁.setParenthesized literal true) :=
        evolves_setParenthesized hs.sound true
      have hsame : ∀ other, s₁.Unasked other → (s₁.setParenthesized literal true).Unasked other :=
        fun other hother => .of_evolves hparens fun p hp => by
          rw [setParenthesized, parent?_modifyHead] at hp
          exact ⟨hs.sound.parent_lt hp, hother p hp⟩
      exact ⟨⟨hs.trans hparens, hstatement.of_evolves hparens⟩, hsize, hsame _ hnew,
        fun other hother => hsame other (hkept other hother)⟩
  case h_2 =>
      rw [gives_bind, gives_set, gives_pure]
      exact ⟨⟨hs, hstatement⟩, hsize, hnew, hkept⟩

/-- A declaration goes away. What it was initialized with stays near the list. -/
theorem evolves_removeDeclaration {count index : Nat} (h : s.Sound) (hunasked : s.Unasked list)
    (hlist : s.kind list = .varList) (hdeclaration : s.Portable declaration) :
    Gives (removeDeclaration unused list count (index, declaration)) s fun _ s' =>
      s.Evolves s' ∧ s'.Unasked list := by
  have hlt : list < s.size := lt_of_kind (by simp [hlist])
  have hremove : s.Evolves (s.remove declaration) ∧ (s.remove declaration).Unasked list :=
    ⟨evolves_remove h hdeclaration.not_key, hunasked.remove h hdeclaration⟩
  rw [removeDeclaration, gives_bind, gives_get]
  refine gives_ite (fun _ => ⟨.refl h, hunasked⟩) fun _ => ?_
  split
  case h_1 => exact hremove
  case h_2 initializer hinitializer =>
      refine gives_ite (fun _ => hremove) fun _ => gives_ite (fun _ => ⟨.refl h, hunasked⟩)
        fun _ => ?_
      rw [gives_bind]
      refine (evolves_demote h (h.portable_of_child? hinitializer)).mono ?_
      rintro statement s₁ ⟨⟨hs₁, hstatement⟩, hsize, hnew, hkept⟩
      have hlist₁ : s₁.kind list = .varList := (hs₁.kind_eq list hlt).trans hlist
      -- Wherever the statement goes, it loses its role there.
      have hdrop : ∀ s₂, s₁.Evolves s₂ → s₂.Unasked statement → s₂.Unasked list →
          s.Evolves (s₂.setRole statement none) ∧ (s₂.setRole statement none).Unasked list := by
        intro s₂ hs₂ hstatement₂ hlist₂
        have hrole : s₂.Evolves (s₂.setRole statement none) :=
          evolves_setRole hs₂.sound (by simp) hstatement₂.not_readsRoles
        refine ⟨hs₁.trans (hs₂.trans hrole), .of_evolves hrole fun p hp => ?_⟩
        rw [parent?_setRole] at hp
        exact ⟨hs₂.sound.parent_lt hp, hlist₂ p hp⟩
      refine gives_ite (fun _ => ?_) fun _ => ?_
      · have hne : list ≠ statement := Nat.ne_of_lt (hlt.trans_le hsize)
        have hreplace := evolves_replace_of_kind hs₁.sound (by rw [hlist₁]; rfl)
          (by simp [hlist₁]) (by simp [hlist₁]) hstatement
        rw [gives_bind, gives_modify, gives_bind, gives_modify, gives_pure]
        refine hdrop _ hreplace (.of_evolves hreplace fun p hp => ?_)
          (.of_evolves hreplace fun p hp => ?_)
        · rw [parent?_replace hne hstatement.lt, if_pos rfl] at hp
          exact ⟨hs₁.sound.parent_lt hp, hkept list hunasked p hp⟩
        · rw [parent?_replace hne hstatement.lt, if_neg hne, if_pos rfl] at hp
          cases hp
      · have hplace : ∀ s₂, s₁.Evolves s₂ → s₂.Unasked statement → s₂.Unasked list →
            s.Evolves ((s₂.remove declaration).setRole statement none) ∧
              ((s₂.remove declaration).setRole statement none).Unasked list := by
          intro s₂ hs₂ hstatement₂ hlist₂
          have hportable := (hdeclaration.of_evolves hs₁).of_evolves hs₂
          have hremove₂ := evolves_remove hs₂.sound hportable.not_key
          exact hdrop _ (hs₂.trans hremove₂) (hstatement₂.remove hs₂.sound hportable)
            (hlist₂.remove hs₂.sound hportable)
        have hlist' := hkept list hunasked
        dsimp only
        refine gives_ite (fun _ => ?_) fun _ => ?_
        · obtain ⟨hinsert, hkept'⟩ := evolves_insertBefore_unasked hs₁.sound hlist' hstatement
          exact hplace _ hinsert (hkept' statement hnew) (hkept' list hlist')
        · obtain ⟨hinsert, hkept'⟩ := evolves_insertAfter_unasked hs₁.sound hlist' hstatement
          exact hplace _ hinsert (hkept' statement hnew) (hkept' list hlist')

theorem keeps_removeDeclarations (h : s.Sound) (hunasked : s.Unasked list)
    (hlist : s.kind list = .varList) : Keeps (removeDeclarations unused list) s := by
  have hstays : ∀ {s'}, s.Evolves s' → s'.kind list = .varList := fun hs =>
    (hs.kind_eq list (lt_of_kind (by simp [hlist]))).trans hlist
  rw [Keeps, removeDeclarations, gives_bind, gives_get]
  dsimp only
  rw [gives_bind]
  refine (gives_sweep (I := fun numbered s' => (∀ d ∈ numbered.map Prod.snd, s.Portable d) ∧
    s.Evolves s' ∧ s'.Unasked list) ⟨?_, .refl h, hunasked⟩ ?_).mono ?_
  · rw [map_snd_numbered]
    exact fun d hd => h.portable_of_mem hd (by simp [hlist])
  · rintro ⟨index, declaration⟩ rest s' ⟨hportable, hs, hunasked'⟩
    rw [List.map_cons, List.forall_mem_cons] at hportable
    refine (evolves_removeDeclaration hs.sound hunasked' (hstays hs)
      (hportable.1.of_evolves hs)).mono ?_
    exact fun _ s'' hs' => ⟨hportable.2, hs.trans hs'.1, hs'.2⟩
  · rintro changed s' ⟨-, hs, -⟩
    refine gives_ite (fun _ => ?_) fun _ => hs
    rw [gives_bind, gives_get]
    refine gives_ite (fun _ => ?_) fun _ => hs
    exact hs.trans (evolves_removeStatement hs.sound (by rw [hstays hs]; rfl)
      (by simp [hstays hs]) (by simp [hstays hs]))

theorem keeps_removeAt {topLevel : Bool} (h : s.Sound) :
    Keeps (removeAt unused topLevel body id) s := by
  rw [Keeps, removeAt, gives_bind, gives_get]
  refine gives_ite (fun _ => .refl h) fun _ => ?_
  split
  case h_1 hkind =>
      refine gives_ite (fun hcase => ?_) fun _ => .refl h
      rw [gives_bind, gives_modify]
      refine evolves_removeStatement h (by rw [hkind]; rfl) (fun _ hform => ?_) (by simp [hkind])
      simp [Tree.isDeclaredFunction, hform] at hcase
  case h_2 hkind =>
      refine gives_ite (fun hin => ?_) fun _ => .refl h
      refine keeps_removeDeclarations h (fun p hp => ?_) hkind
      exact not_isRigid_of_isStatementList (listed_of_inStatementList hin p hp)
  case h_3 => exact .refl h

theorem keeps_removeFromBody (h : s.Sound) : Keeps (removeFromBody id) s := by
  rw [Keeps, removeFromBody, gives_bind, gives_get]
  split
  · exact keeps_pure h
  case h_2 scope _ =>
      refine gives_ite (fun _ => keeps_pure h) fun _ => ?_
      refine gives_ite (fun hkind => ?_) fun _ =>
        keeps_sweep h fun _ _ _ hs => keeps_removeAt hs.sound
      have hlt : id < s.size := lt_of_kind (by simp [hkind])
      refine gives_ite (fun _ => (keeps_pure h).bind fun params s₁ hs₁ => ?_) fun _ =>
        (keeps_removeTrailingParams h).bind fun params s₁ hs₁ => ?_
      -- The same is left whether or not there were parameters to remove.
      all_goals
        have hkind₁ : s₁.kind id = .function := by rw [hs₁.kind_eq id hlt, hkind]
        refine (keeps_removeFunctionName hs₁.sound hkind₁).bind fun name s₂ hs₂ => ?_
        rw [Keeps, gives_bind, gives_get]
        split
        · exact keeps_pure hs₂.sound
        · rw [gives_bind]
          exact keeps_sweep hs₂.sound fun _ _ _ hs => keeps_removeAt hs.sound

theorem keeps_round (h : s.Sound) : Keeps round s := by
  have hscan : s.Evolves s.scanTree := evolves_scanTree h
  rw [Keeps, round, gives_bind, gives_modify, gives_bind, gives_get]
  refine (keeps_sweep hscan.sound fun _ _ _ hs => keeps_removeFromBody hs.sound).mono ?_
  exact fun _ _ hs => hscan.trans hs

end Unused

end ScriptMin
