import Mathlib.Data.Option.Basic
import ScriptMin.Pass.Declarations
import ScriptMin.Pass.Unused
import ScriptMin.Proofs.Pass.Following

/-!
The passes that move and remove declarations leave forests behind. Initializers leave a list for
new assignments, which take the place of the list: nothing below the list is on its line. The
lists of a body are looked up before the first of them is edited, so that it matters that no
edit makes the store smaller.
-/

namespace ScriptMin

open Store Edit

variable {s s' s'' : Store} {id list : NodeId} {S : Set NodeId}

namespace Store

/-- A forest with all the nodes of an earlier store. -/
structure Later (s s' : Store) : Prop where
  forest : s'.Forest
  size_le : s.size ≤ s'.size

theorem Later.refl (h : s.Forest) : Later s s := ⟨h, Nat.le_refl _⟩

theorem Later.trans (h : Later s s') (h' : Later s' s'') : Later s s'' :=
  ⟨h'.forest, h.size_le.trans h'.size_le⟩

theorem Later.lt (h : Later s s') (hid : id < s.size) : id < s'.size := hid.trans_le h.size_le

theorem Steady.later (h : Steady S s s') : Later s s' := ⟨h.forest, h.size_le⟩

theorem later_remove (h : s.Forest) (id : NodeId) : Later s (s.remove id) :=
  (steady_remove (S := ∅) h nofun).later

theorem later_removeStatement (h : s.Forest) : Later s (s.removeStatement id) := by
  refine ⟨h.removeStatement, ?_⟩
  rw [removeStatement]
  split
  · exact (later_remove h id).size_le
  · dsimp only
    rw [size_replace, size_add]
    exact Nat.le_succ _

theorem mem_preorderFrom_lt {enter : NodeId → Bool} {fuel : Nat} (h : s.Linked) (hid : id < s.size)
    {x : NodeId} (hx : x ∈ s.preorderFrom enter fuel id) : x < s.size := by
  induction fuel generalizing id with
  | zero => exact List.mem_singleton.mp hx ▸ hid
  | succ fuel ih =>
      rw [preorderFrom, List.mem_cons] at hx
      rcases hx with rfl | hx
      · exact hid
      · split at hx
        · obtain ⟨c, hc, hx⟩ := List.mem_flatMap.mp hx
          exact ih (h.child_lt hc) hx
        · cases hx

theorem mem_bodyNodes_lt {x : NodeId} (h : s.Linked) (hx : x ∈ s.bodyNodes id) : x < s.size := by
  obtain ⟨c, hc, hx⟩ := List.mem_flatMap.mp hx
  exact mem_preorderFrom_lt h (h.child_lt hc) hx

end Store

/-! ### Combination of declarations -/

namespace Declarations

/-- An edit leaves a forest behind that has all nodes the store had. -/
def KeepsNodes {α : Type} (m : Edit α) (s : Store) : Prop := Gives m s fun _ s' => Later s s'

theorem KeepsNodes.bind {α β : Type} {m : Edit α} {f : α → Edit β} (h : KeepsNodes m s)
    (hf : ∀ a s', Later s s' → KeepsNodes (f a) s') : KeepsNodes (m >>= f) s := by
  rw [KeepsNodes, gives_bind]
  exact Gives.mono h fun a s' hs => (hf a s' hs).mono fun _ _ hs' => hs.trans hs'

theorem keepsNodes_sweep {α : Type} {edit : α → Edit Bool} {items : List α} (h : s.Forest)
    (hedit : ∀ item ∈ items, ∀ s', Later s s' → KeepsNodes (edit item) s') :
    KeepsNodes (sweep edit items) s := by
  refine (gives_sweep (I := fun rest s' => rest ⊆ items ∧ Later s s')
    ⟨List.Subset.refl _, .refl h⟩ ?_).mono fun _ _ hs => hs.2
  rintro item rest s' ⟨hrest, hs⟩
  obtain ⟨hitem, hrest⟩ := List.cons_subset.mp hrest
  exact (hedit item hitem s' hs).mono fun _ _ hs' => ⟨hrest, hs.trans hs'⟩

/-- A list of declarations is merged into the one before it, and the lines of the others stay. -/
theorem steady_merge {previous current : NodeId} {rest : List NodeId} (h : s.Forest)
    (hids : Siblings s list (previous :: current :: rest)) :
    Steady {x | x ∈ previous :: rest} s ((s.moveChildren current previous).remove current) := by
  have hcurrent : Movable {x | x ∈ previous :: rest} s current :=
    (hids.perm (.swap current previous rest)).movable h
  have hlt : previous < s.size := parent?_lt (hids.parent _ List.mem_cons_self)
  have hmove : Steady {x | x ∈ previous :: rest} s (s.moveChildren current previous) := by
    refine (h.moveChildren hlt (hcurrent.off previous List.mem_cons_self)).steady
      (M := (· ∈ s.children current)) size_moveChildren.ge ?_ ?_ ?_
    · rw [root, root, chosenRoot_moveChildren]
    · intro z hz
      rw [parent?_moveChildren fun c hc => h.child_lt hc, if_neg hz]
    · exact fun z hz => (hcurrent.of_child h hz).off
  exact hmove.trans (steady_remove hmove.forest (hcurrent.of_steady hmove).off)

theorem keepsNodes_mergeInto {previous : NodeId} {rest : List NodeId} (h : s.Forest)
    (hids : Siblings s list (previous :: rest)) : KeepsNodes (mergeInto previous rest) s := by
  induction rest generalizing s previous with
  | nil => exact .refl h
  | cons current rest ih =>
      rw [KeepsNodes, mergeInto, gives_bind, gives_get]
      split
      case isFalse => exact ih h (hids.sublist (List.sublist_cons_self _ _))
      case isTrue =>
          have hs := steady_merge h hids
          rw [gives_bind, gives_modify, gives_bind]
          refine (ih hs.forest (Siblings.of_steady (hids.sublist ?_) hs)).mono
            fun _ s' hs' => hs.later.trans hs'
          exact List.Sublist.cons_cons _ (List.sublist_cons_self _ _)

theorem keepsNodes_mergeNeighbours (h : s.Forest) : KeepsNodes (mergeNeighbours list) s := by
  rw [KeepsNodes, mergeNeighbours, gives_bind, gives_get]
  split
  · exact .refl h
  case h_2 first rest hlist => exact keepsNodes_mergeInto h (hlist ▸ siblings_children h list)

theorem keepsNodes_mergeBody (h : s.Forest) : KeepsNodes (mergeBody id) s := by
  rw [KeepsNodes, mergeBody, gives_bind, gives_get]
  exact keepsNodes_sweep h fun _ _ _ hs => keepsNodes_mergeNeighbours hs.forest

/-! ### Collecting names and assigning initializers -/

variable {collector declaration : NodeId} {declared : NameSet}

theorem gives_collect (h : s.Forest) (hcollector : collector < s.size)
    (hlt : ∀ x ∈ S, x < s.size) (name : String) :
    Gives (collect collector declared name) s fun _ s' => Steady S s s' := by
  rw [collect]
  refine gives_ite (fun _ => .refl h) fun _ => ?_
  rw [gives_bind, gives_get]
  rcases hadd : s.add { kind := .declaration, span := s.span collector, payload := .text name }
    with ⟨new, s₁⟩
  obtain ⟨hs, -⟩ := h.built_add (S := insert collector S) hadd
  have hnew := hs.movable h.toLinked (by
    rintro x (rfl | hx)
    · exact hcollector
    · exact hlt x hx)
  have happend := steady_append hs.forest (hs.lt hcollector) hnew (hnew.off collector (.inl rfl))
  exact (hs.toSteady.trans happend).mono (Set.subset_insert _ _)

theorem gives_collectAll (h : s.Forest) (hcollector : collector < s.size)
    (hlt : ∀ x ∈ S, x < s.size) (names : List String) :
    Gives (collectAll collector names declared) s fun _ s' => Steady S s s' := by
  induction names generalizing s declared with
  | nil => exact .refl h
  | cons name rest ih =>
      rw [collectAll, gives_bind]
      refine (gives_collect h hcollector hlt name).mono fun _ s' hs => ?_
      exact (ih hs.forest (hs.lt hcollector) fun x hx => hs.lt (hlt x hx)).mono
        fun _ _ hs' => hs.trans hs'

theorem gives_target (h : s.Forest) (hlist : list < s.size)
    (hdeclaration : Movable {list} s declaration) :
    Gives (target declaration) s fun target s' => Steady {list} s s' ∧ Movable {list} s' target := by
  rw [target, gives_bind, gives_get]
  split
  case h_1 pattern hpattern => exact ⟨.refl h, hdeclaration.of_child h (mem_of_child? hpattern)⟩
  case h_2 =>
      rcases hadd : s.add
        { kind := .identifier, span := s.span declaration, payload := .text (s.text declaration) }
        with ⟨name, s₁⟩
      obtain ⟨hs, -⟩ := h.built_add (S := {list}) hadd
      exact ⟨hs.toSteady, hs.movable h.toLinked (singleton_lt hlist)⟩

/-- The assignment of an initializer can take the place of the list of its declaration. -/
theorem gives_toAssignment (h : s.Forest) (hlist : list < s.size) (hcollector : collector < s.size)
    (hdeclaration : Movable {list} s declaration) :
    Gives (toAssignment collector declaration declared) s fun result s' =>
      Steady {list} s s' ∧ ∀ assign ∈ result.2, Movable {list} s' assign := by
  rw [toAssignment, gives_bind, gives_get, gives_bind]
  refine (gives_collectAll h hcollector (singleton_lt hlist) _).mono fun declared' s₁ hs₁ => ?_
  rw [gives_bind]
  refine (gives_target hs₁.forest (hs₁.lt hlist) (hdeclaration.of_steady hs₁)).mono ?_
  rintro target s₂ ⟨hs₂, htarget⟩
  have hs₁₂ := hs₁.trans hs₂
  rw [gives_bind, gives_get]
  split
  case h_1 => exact ⟨hs₁₂, nofun⟩
  case h_2 initializer hinitializer =>
      have hvalue := (hdeclaration.of_steady hs₁₂).of_child hs₂.forest (mem_of_child? hinitializer)
      rcases hadd : s₂.add { kind := .assign, span := s₂.span declaration } with ⟨assign, s₃⟩
      obtain ⟨hs₃, -⟩ := hs₂.forest.built_add (S := {list}) hadd
      have hleft := (hs₃.append (htarget.of_steady hs₃.toSteady)
        (Nat.ne_of_gt (htarget.lt.trans_le hs₃.size_le_new))).setRole target none
      have hright := (hleft.append (hvalue.of_steady hleft.toSteady)
        (Nat.ne_of_gt (hvalue.lt.trans_le hs₃.size_le_new))).setRole initializer none
      rw [gives_bind, gives_set, gives_pure]
      refine ⟨hs₁₂.trans hright.toSteady, ?_⟩
      rintro _ ⟨⟩
      exact hright.movable hs₂.forest.toLinked (singleton_lt (hs₁₂.lt hlist))

theorem gives_toAssignments {declarations : List NodeId} (h : s.Forest) (hlist : list < s.size)
    (hcollector : collector < s.size) (hdeclarations : ∀ d ∈ declarations, Movable {list} s d) :
    Gives (toAssignments collector declarations declared) s fun result s' =>
      Steady {list} s s' ∧ ∀ assign ∈ result.2, Movable {list} s' assign := by
  induction declarations generalizing s declared with
  | nil => exact ⟨.refl h, nofun⟩
  | cons declaration rest ih =>
      rw [List.forall_mem_cons] at hdeclarations
      rw [toAssignments, gives_bind]
      refine (gives_toAssignment h hlist hcollector hdeclarations.1).mono ?_
      rintro ⟨declared', assign⟩ s₁ ⟨hs₁, hassign⟩
      rw [gives_bind]
      refine (ih hs₁.forest (hs₁.lt hlist) (hs₁.lt hcollector)
        fun d hd => (hdeclarations.2 d hd).of_steady hs₁).mono ?_
      rintro ⟨declared'', assigns⟩ s₂ ⟨hs₂, hassigns⟩
      refine ⟨hs₁.trans hs₂, fun a ha => ?_⟩
      rcases List.mem_append.mp ha with ha | ha
      · exact (hassign a (Option.mem_toList.mp ha)).of_steady hs₂
      · exact hassigns a ha

theorem gives_sequence {span : Span} {assigns : List NodeId} (h : s.Forest) (hlist : list < s.size)
    (hassigns : ∀ a ∈ assigns, Movable {list} s a) :
    Gives (sequence span assigns) s fun result s' =>
      Steady {list} s s' ∧ ∀ expression ∈ result, Movable {list} s' expression := by
  rw [sequence.eq_def]
  split
  · exact ⟨.refl h, nofun⟩
  case h_2 assign =>
      refine ⟨.refl h, ?_⟩
      rintro _ ⟨⟩
      exact hassigns assign (List.mem_singleton_self _)
  case h_3 =>
      rw [gives_bind, gives_get]
      rcases hadd : s.add { kind := .comma, span } with ⟨comma, s₁⟩
      obtain ⟨hs, -⟩ := h.built_add (S := {list}) hadd
      have hfold := hs.foldl_append fun a ha =>
        ⟨(hassigns a ha).of_steady hs.toSteady,
          Nat.ne_of_gt ((hassigns a ha).lt.trans_le hs.size_le_new)⟩
      refine ⟨hfold.toSteady, ?_⟩
      rintro _ ⟨⟩
      exact hfold.movable h.toLinked (singleton_lt hlist)

theorem keepsNodes_assignList (h : s.Forest) (hlist : list < s.size)
    (hcollector : collector < s.size) : KeepsNodes (assignList collector declared list) s := by
  rw [KeepsNodes, assignList, gives_bind, gives_get]
  dsimp only
  rw [gives_bind, gives_get, gives_bind]
  refine (gives_toAssignments h hlist hcollector fun d hd => h.movable_child hd).mono ?_
  rintro ⟨declared', assigns⟩ s₁ ⟨hs₁, hassigns⟩
  rw [gives_bind]
  refine (gives_sequence hs₁.forest (hs₁.lt hlist) hassigns).mono ?_
  rintro expression s₂ ⟨hs₂, hexpression⟩
  have hs := hs₁.trans hs₂
  rw [gives_bind, gives_get]
  dsimp only
  split
  case h_1 expression =>
      have hmovable := hexpression expression rfl
      split
      · rw [gives_bind, gives_set, gives_pure]
        refine ⟨hs.forest.replace hmovable.lt hmovable.ne_root (hmovable.off list rfl), ?_⟩
        rw [size_replace]
        exact hs.size_le
      · rcases hadd : s₂.add { kind := .semicolon, span := s.span list } with ⟨statement, s₃⟩
        obtain ⟨hs₃, -⟩ := hs.forest.built_add (S := {list}) hadd
        have hne : statement ≠ expression :=
          Nat.ne_of_gt (hmovable.lt.trans_le hs₃.size_le_new)
        have happend := (hs₃.append (hmovable.of_steady hs₃.toSteady) hne).setRole
          expression (some .expression)
        dsimp only
        rw [gives_bind, gives_set, gives_pure, appendAs]
        refine ⟨happend.replace hs.forest.toLinked (hs.lt hlist), ?_⟩
        rw [size_replace]
        exact hs.size_le.trans happend.size_le
  case h_2 =>
      rw [gives_bind, gives_set, gives_pure]
      refine hs.later.trans ?_
      split
      · exact later_remove hs.forest _
      · exact later_removeStatement hs.forest

theorem keepsNodes_assignLists {lists : List NodeId} (h : s.Forest)
    (hlists : ∀ list ∈ lists, list < s.size) (hcollector : collector < s.size) :
    KeepsNodes (assignLists collector lists declared) s := by
  induction lists generalizing s declared with
  | nil => exact .refl h
  | cons list rest ih =>
      rw [List.forall_mem_cons] at hlists
      refine (keepsNodes_assignList h hlists.1 hcollector).bind fun declared' s' hs => ?_
      exact ih hs.forest (fun l hl => hs.lt (hlists.2 l hl)) (hs.lt hcollector)

theorem keepsNodes_prune {initialized : NameSet} {declarations : List NodeId} {seen : NameSet}
    (h : s.Forest) : KeepsNodes (prune initialized declarations seen) s := by
  induction declarations generalizing s seen with
  | nil => exact .refl h
  | cons declaration rest ih =>
      rw [KeepsNodes, prune, gives_bind, gives_get]
      refine gives_ite (fun _ => ih h) fun _ => gives_ite (fun _ => ?_) fun _ => ih h
      have hremove := later_remove h declaration
      rw [gives_bind, gives_modify, gives_bind]
      exact (ih hremove.forest).mono fun _ _ hs => hremove.trans hs

theorem keepsNodes_pruneList (h : s.Forest) : KeepsNodes (pruneList list) s := keepsNodes_prune h

theorem keepsNodes_moveIntoLoop (h : s.Forest) : KeepsNodes (moveIntoLoop list) s := by
  rw [KeepsNodes, moveIntoLoop, gives_bind, gives_get]
  dsimp only
  split
  case h_2 => exact .refl h
  case h_1 next hnext =>
      refine gives_ite (fun _ => ?_) fun _ => .refl h
      simp only [Option.bind_eq_bind, Option.bind_eq_some_iff] at hnext
      obtain ⟨p, hp, _, -, index, hindex, hnext⟩ := hnext
      have hnext' := h.parent?_of_mem (mem_of_nth? hnext)
      -- The loop is another statement of the same list.
      have hne : next ≠ list := by
        rintro rfl
        obtain ⟨q, hq, hfind⟩ := Option.bind_eq_some_iff.mp hindex
        obtain rfl : p = q := Option.some_inj.mp (hp.symm.trans hq)
        obtain ⟨hlt, hget, -⟩ := List.findIdx?_eq_some_iff_getElem.mp hfind
        have hsame : (s.children p)[index]? = (s.children p)[index + 1]? := by
          rw [List.getElem?_eq_getElem hlt, eq_of_beq hget]
          exact hnext.symm
        exact absurd ((List.getElem?_inj hlt (h.nodup p)).mp hsame) (Nat.ne_of_lt index.lt_succ_self)
      have hloose := h.toLinked.loose_of_mem ((h.linked p list).mpr hp)
      have hinsert := steady_insert (S := ∅) h 0 (parent?_lt hnext') ⟨hloose, (by simp)⟩
        (h.not_within_sibling hnext' hp hne)
      rw [gives_set]
      exact (hinsert.trans (steady_setRole hinsert.forest _ _)).later

theorem gives_collector {body first : NodeId} (h : s.Forest) (hbody : body < s.size)
    (hfirst : first < s.size) :
    Gives (Declarations.collector body first) s fun list s' => Later s s' ∧ list < s'.size := by
  rw [Declarations.collector, gives_bind, gives_get]
  refine gives_ite (fun _ => ?_) fun _ => ⟨.refl h, hfirst⟩
  rcases hadd : s.add { kind := .varList, span := s.span body } with ⟨new, s₁⟩
  obtain ⟨hs, -⟩ := h.built_add (S := {body}) hadd
  have hnew := hs.movable h.toLinked (singleton_lt hbody)
  have hinsert := steady_insert hs.forest 0 (hs.lt hbody) hnew (hnew.off body rfl)
  exact ⟨(hs.toSteady.trans hinsert).later, hinsert.lt hnew.lt⟩

theorem keepsNodes_combineBody {body : NodeId} (h : s.Forest) (hbody : body < s.size) :
    KeepsNodes (combineBody body) s := by
  rw [KeepsNodes, combineBody, gives_bind, gives_get]
  split
  · exact .refl h
  case h_2 first others hlists =>
      have hlt : ∀ list ∈ first :: others, list < s.size := by
        intro list hlist
        rw [← hlists] at hlist
        exact mem_bodyNodes_lt h.toLinked (List.mem_filter.mp hlist).1
      rw [List.forall_mem_cons] at hlt
      dsimp only
      refine gives_ite (fun _ => gives_ite (fun _ => .refl h) fun _ => keepsNodes_pruneList h)
        fun _ => ?_
      rw [gives_bind]
      refine (gives_collector h hbody hlt.1).mono ?_
      rintro list s₁ ⟨hs₁, hlist⟩
      rw [gives_bind, gives_get]
      have hothers : ∀ other ∈ others.filter fun list => !isIterator s list, other < s₁.size :=
        fun other hother => hs₁.lt (hlt.2 other (List.mem_of_mem_filter hother))
      refine Gives.mono (KeepsNodes.bind (keepsNodes_assignLists hs₁.forest hothers hlist)
        fun _ s₂ hs₂ => ?_) fun _ _ hs => hs₁.trans hs
      refine (keepsNodes_pruneList hs₂.forest).bind fun _ s₃ hs₃ => ?_
      exact (keepsNodes_moveIntoLoop hs₃.forest).bind fun _ s₄ hs₄ => .refl hs₄.forest

theorem keepsNodes_visitBody {body : NodeId} (h : s.Forest) (hbody : body < s.size) :
    KeepsNodes (visitBody body) s := by
  refine (keepsNodes_mergeBody h).bind fun _ s₁ hs₁ => ?_
  refine (keepsNodes_combineBody hs₁.forest (hs₁.lt hbody)).bind fun _ s₂ hs₂ => ?_
  exact (keepsNodes_mergeBody hs₂.forest).bind fun _ s₃ hs₃ => .refl hs₃.forest

end Declarations

theorem keepsForest_combineDeclarations (h : s.Forest) : KeepsForest combineDeclarations s := by
  rw [KeepsForest, combineDeclarations, gives_bind, gives_get]
  refine Gives.mono (Declarations.keepsNodes_sweep h fun body hbody s' hs => ?_)
    fun _ _ hs => hs.forest
  refine Declarations.keepsNodes_visitBody hs.forest (hs.lt ?_)
  rcases List.mem_cons.mp hbody with rfl | hbody
  · exact h.root_lt
  · obtain ⟨id, -, hid⟩ := List.mem_filterMap.mp hbody
    split at hid
    · exact h.child_lt (mem_of_child? hid)
    · cases hid

/-! ### Removal of declarations -/

namespace Unused

variable {unused : NameSet} {expression : NodeId}

theorem keepsForest_removeTrailingParams (h : s.Forest) :
    KeepsForest (removeTrailingParams unused id) s := by
  rw [KeepsForest, removeTrailingParams, gives_bind, gives_get]
  split
  · exact h
  · exact keepsForest_sweep h fun _ _ hs => hs.remove

theorem keepsForest_removeFunctionName (h : s.Forest) :
    KeepsForest (removeFunctionName unused id) s := by
  rw [KeepsForest, removeFunctionName, gives_bind, gives_get]
  refine gives_ite (fun _ => h) fun _ => ?_
  split
  · refine gives_ite (fun _ => ?_) fun _ => h
    rw [gives_bind, gives_modify, gives_pure, setPayload]
    exact h.modifyHead _
  · exact h

theorem gives_demote (h : s.Forest) (hexpression : Movable S s expression) :
    Gives (demote expression) s fun statement s' => Built S s s' statement := by
  rw [demote, gives_bind, gives_get]
  rcases hwrap : s.wrapExpression expression with ⟨statement, s₁⟩
  have hs := h.built_wrapExpression hexpression hwrap
  dsimp only
  split
  · rw [gives_bind, gives_set, gives_pure, setParenthesized]
    exact hs.modifyHead _
  · rw [gives_bind, gives_set, gives_pure]
    exact hs

/-- While declarations are removed from a list, no declaration that is left is on its line. -/
theorem gives_removeDeclaration {count index : Nat} {declaration : NodeId} {rest : List NodeId}
    (h : s.Forest) (hlist : list < s.size) (hdeclaration : Movable {list} s declaration)
    (hrest : ∀ d ∈ rest, Movable {list} s d) (hone : count = 1 → rest = []) :
    Gives (removeDeclaration unused list count (index, declaration)) s fun _ s' =>
      s'.Forest ∧ list < s'.size ∧ ∀ d ∈ rest, Movable {list} s' d := by
  -- The line of the list stays, unless the list is the one that is replaced.
  have hsteady : ∀ s', Steady {list} s s' →
      s'.Forest ∧ list < s'.size ∧ ∀ d ∈ rest, Movable {list} s' d :=
    fun s' hs => ⟨hs.forest, hs.lt hlist, fun d hd => (hrest d hd).of_steady hs⟩
  have hremove := steady_remove h hdeclaration.off
  rw [removeDeclaration, gives_bind, gives_get]
  refine gives_ite (fun _ => hsteady s (.refl h)) fun _ => ?_
  split
  case h_1 => exact hsteady _ hremove
  case h_2 initializer hinitializer =>
      refine gives_ite (fun _ => hsteady _ hremove) fun _ => gives_ite (fun _ => hsteady s (.refl h))
        fun _ => ?_
      rw [gives_bind]
      refine (gives_demote h (hdeclaration.of_child h (mem_of_child? hinitializer))).mono
        fun statement s₁ hs₁ => ?_
      have hstatement := hs₁.movable h.toLinked (singleton_lt hlist)
      have hdeclaration₁ := hdeclaration.of_steady hs₁.toSteady
      refine gives_ite (fun hcount => ?_) fun _ => ?_
      · have hreplace := hs₁.replace h.toLinked hlist
        rw [gives_bind, gives_modify, gives_bind, gives_modify, gives_pure, hone hcount]
        refine ⟨hreplace.setRole none, ?_, nofun⟩
        rw [setRole, size_modifyHead, size_replace]
        exact hs₁.lt hlist
      · -- The statement goes before or behind the list, and the declaration away.
        have hplace : ∀ s₂, Steady {list} s₁ s₂ →
            Steady {list} s (((s₂.remove declaration).setRole statement none)) := by
          intro s₂ hs₂
          have hremove₂ := steady_remove hs₂.forest (hdeclaration₁.of_steady hs₂).off
          have hrole := hremove₂.trans (steady_setRole hremove₂.forest statement none)
          exact hs₁.toSteady.trans (hs₂.trans hrole)
        have hoff := hstatement.off list rfl
        dsimp only
        refine gives_ite (fun _ => ?_) fun _ => ?_
        · exact hsteady _ (hplace _ (steady_insertBefore hs₁.forest hstatement hoff))
        · exact hsteady _ (hplace _ (steady_insertAfter hs₁.forest hstatement hoff))

/-- Where the removal of declarations from a list stands. -/
structure Removing (list : NodeId) (count : Nat) (numbered : List (Nat × NodeId)) (s : Store) :
    Prop where
  forest : s.Forest
  lt : list < s.size
  movable : ∀ d ∈ numbered.map Prod.snd, Movable {list} s d
  single : count = 1 → numbered.length ≤ 1

theorem map_snd_numbered (declarations : List NodeId) :
    ((List.range declarations.length).zip declarations).map Prod.snd = declarations :=
  List.map_snd_zip (by rw [List.length_range])

theorem removing_children (h : s.Forest) (hlist : list < s.size) :
    Removing list (s.children list).length
      ((List.range (s.children list).length).zip (s.children list)) s := by
  refine ⟨h, hlist, ?_, fun hone => ?_⟩
  · rw [map_snd_numbered]
    exact fun d hd => h.movable_child hd
  · rw [List.length_zip, hone]
    exact Nat.min_le_right _ _

theorem Removing.gives {count index : Nat} {declaration : NodeId} {rest : List (Nat × NodeId)}
    (h : Removing list count ((index, declaration) :: rest) s) :
    Gives (removeDeclaration unused list count (index, declaration)) s fun _ s' =>
      Removing list count rest s' := by
  have hmovable := h.movable
  rw [List.map_cons, List.forall_mem_cons] at hmovable
  refine (gives_removeDeclaration h.forest h.lt hmovable.1 hmovable.2 ?_).mono ?_
  · intro hcount
    have hone := h.single hcount
    rw [List.length_cons] at hone
    rw [List.length_eq_zero_iff.mp (Nat.le_zero.mp (Nat.le_of_succ_le_succ hone)), List.map_nil]
  · rintro changed s' ⟨hs, hlt, hmovable⟩
    exact ⟨hs, hlt, hmovable, fun hcount => Nat.le_of_succ_le (h.single hcount)⟩

theorem keepsForest_removeDeclarations (h : s.Forest) (hlist : list < s.size) :
    KeepsForest (removeDeclarations unused list) s := by
  rw [KeepsForest, removeDeclarations, gives_bind, gives_get]
  dsimp only
  rw [gives_bind]
  refine (gives_sweep (I := Removing list (s.children list).length) (removing_children h hlist)
    fun _ _ _ hs => hs.gives).mono ?_
  rintro changed s' hs
  refine gives_ite (fun _ => ?_) fun _ => hs.forest
  rw [gives_bind, gives_get]
  exact gives_ite (fun _ => hs.forest.removeStatement) fun _ => hs.forest

theorem keepsForest_removeAt {topLevel : Bool} {body : NodeId} (h : s.Forest) :
    KeepsForest (removeAt unused topLevel body id) s := by
  rw [KeepsForest, removeAt, gives_bind, gives_get]
  refine gives_ite (fun _ => h) fun _ => ?_
  split
  · exact gives_ite (fun _ => h.removeStatement) fun _ => h
  · refine gives_ite (fun hin => ?_) fun _ => h
    cases hparent : s.parent? id with
    | none =>
        rw [inStatementList, parentKind?, hparent] at hin
        cases hin
    | some p => exact keepsForest_removeDeclarations h (parent?_lt hparent)
  · exact h

theorem keepsForest_removeFromBody (h : s.Forest) : KeepsForest (removeFromBody id) s := by
  rw [KeepsForest, removeFromBody, gives_bind, gives_get]
  split
  · exact h
  case h_2 scope _ =>
      refine gives_ite (fun _ => h) fun _ => ?_
      refine gives_ite (fun _ => ?_) fun _ =>
        keepsForest_sweep h fun _ _ hs => keepsForest_removeAt hs
      refine gives_ite (fun _ => (keepsForest_pure h _).bind fun params s₁ hs₁ => ?_) fun _ =>
        (keepsForest_removeTrailingParams h).bind fun params s₁ hs₁ => ?_
      -- The same is left whether or not there were parameters to remove.
      all_goals
        refine (keepsForest_removeFunctionName hs₁).bind fun name s₂ hs₂ => ?_
        rw [KeepsForest, gives_bind, gives_get]
        split
        · exact hs₂
        · rw [gives_bind]
          exact keepsForest_sweep hs₂ fun _ _ hs => keepsForest_removeAt hs

theorem keepsForest_round (h : s.Forest) : KeepsForest round s := by
  rw [KeepsForest, round, gives_bind, gives_modify, gives_bind, gives_get]
  exact keepsForest_sweep h.scan fun _ _ hs => keepsForest_removeFromBody hs

end Unused

end ScriptMin
