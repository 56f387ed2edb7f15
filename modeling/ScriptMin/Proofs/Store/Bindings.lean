import ScriptMin.Proofs.Store.Scopes

/-!
Which nodes bind names. The names that are local to a body are the texts of nodes: declarations
and functions that the scan of the body meets, its own name, and the names in patterns. Which
nodes these are depends on how the tree is built and not on what the texts are.
-/

namespace ScriptMin.Store

variable {s : Store} {id owner root c d : NodeId} {x : String}

/-! ### Patterns -/

/-- A node is a part of a pattern that can bind a name, or a pattern itself. -/
inductive PatternPart (s : Store) (root : NodeId) : NodeId → Prop where
  | root : PatternPart s root root
  | element {id c : NodeId} (part : PatternPart s root id) (kind_eq : s.kind id = .arrayInit)
      (mem : c ∈ s.children id) : PatternPart s root c
  | value {id property c : NodeId} (part : PatternPart s root id)
      (kind_eq : s.kind id = .objectInit) (mem : property ∈ s.children id)
      (nth : s.nth? property 1 = some c) : PatternPart s root c

theorem boundNames_view (hs : s.Forest) (id : NodeId) : (s.view id).boundNames =
    match s.kind id with
    | .identifier => [s.text id]
    | .arrayInit => Tree.boundNamesList ((s.children id).map s.view)
    | .objectInit => Tree.boundNamesOfFields ((s.children id).map s.view)
    | _ => [] := by
  rw [hs.view_eq_node, Tree.boundNames, show (s.head id).kind = s.kind id from rfl]
  cases s.kind id <;> rfl

theorem boundNames_name (hs : s.Forest) (hkind : s.kind id = .identifier) :
    (s.view id).boundNames = [s.text id] := by
  rw [boundNames_view hs, hkind]

theorem mem_boundNames_array (hs : s.Forest) (hkind : s.kind id = .arrayInit) :
    x ∈ (s.view id).boundNames ↔ ∃ c ∈ s.children id, x ∈ (s.view c).boundNames := by
  rw [boundNames_view hs, hkind]
  simp only [Tree.mem_boundNamesList, List.mem_map, exists_exists_and_eq_and]

theorem mem_boundNames_object (hs : s.Forest) (hkind : s.kind id = .objectInit) :
    x ∈ (s.view id).boundNames ↔ ∃ property ∈ s.children id, ∃ value,
      s.nth? property 1 = some value ∧ x ∈ (s.view value).boundNames := by
  rw [boundNames_view hs, hkind]
  simp only [Tree.mem_boundNamesOfFields, List.mem_map, exists_exists_and_eq_and, hs.nth?_view,
    Option.map_eq_some_iff]

/-- A part of a pattern binds a name. -/
def Binds (s : Store) (root : NodeId) (x : String) : Prop :=
  ∃ d, s.PatternPart root d ∧ s.kind d = .identifier ∧ s.text d = x

theorem PatternPart.mem_boundNames (hs : s.Forest) (h : s.PatternPart root d)
    (hx : x ∈ (s.view d).boundNames) : x ∈ (s.view root).boundNames := by
  induction h with
  | root => exact hx
  | element _ hkind hc ih => exact ih ((mem_boundNames_array hs hkind).mpr ⟨_, hc, hx⟩)
  | value _ hkind hproperty hnth ih =>
      exact ih ((mem_boundNames_object hs hkind).mpr ⟨_, hproperty, _, hnth, hx⟩)

theorem PatternPart.binds (hs : s.Forest) (id : NodeId) : s.PatternPart root id →
    x ∈ (s.view id).boundNames → s.Binds root x := by
  -- The parts of an object pattern are the children of its children.
  suffices ∀ c, c = id ∨ c ∈ s.children id → s.PatternPart root c → x ∈ (s.view c).boundNames →
      s.Binds root x from this id (.inl rfl)
  induction id using hs.descend with
  | step id ih =>
      rintro c (rfl | hc) hpart hx
      · have hbound := hx
        rw [boundNames_view hs] at hbound
        split at hbound
        case h_1 hkind => exact ⟨c, hpart, hkind, (List.mem_singleton.mp hbound).symm⟩
        case h_2 hkind =>
            obtain ⟨element, hmem, hx⟩ := (mem_boundNames_array hs hkind).mp hx
            exact ih element hmem element (.inl rfl) (.element hpart hkind hmem) hx
        case h_3 hkind =>
            obtain ⟨property, hmem, value, hnth, hx⟩ := (mem_boundNames_object hs hkind).mp hx
            exact ih property hmem value (.inr (mem_of_nth? hnth))
              (.value hpart hkind hmem hnth) hx
        case h_4 => cases hbound
      · exact ih c hc c (.inl rfl) hpart hx

/-- A pattern binds the names that are parts of it. -/
theorem mem_boundNames (hs : s.Forest) : x ∈ (s.view root).boundNames ↔ s.Binds root x := by
  constructor
  · exact PatternPart.binds hs root .root
  · rintro ⟨d, hpart, hkind, rfl⟩
    refine hpart.mem_boundNames hs ?_
    rw [boundNames_name hs hkind]
    exact List.mem_singleton_self _

/-! ### Nodes that bind names -/

/-- A function is named inside itself. -/
def NamesItself (s : Store) (id : NodeId) : Prop :=
  s.kind id = .function ∧ (s.head id).form = some .expressed ∧ Tree.isAccessor (s.head id) = false

/-- A pattern binds names of a body. -/
inductive BindsPattern (s : Store) (owner : NodeId) : NodeId → Prop where
  | names {d root : NodeId} (meets : s.Meets owner d) (kind_eq : s.kind d = .declaration)
      (child : s.child? d .names = some root) : BindsPattern s owner root
  | exception {d root : NodeId} (meets : s.Meets owner d) (kind_eq : s.kind d = .catchClause)
      (child : s.child? d .exception = some root) : BindsPattern s owner root
  | iterator {d root : NodeId} (meets : s.Meets owner d) (kind_eq : s.kind d = .forIn)
      (clause : s.isClause d) (child : s.child? d .iterator = some root) :
      BindsPattern s owner root
  | parameter {params root : NodeId} (kind_eq : s.kind owner = .function)
      (child : s.child? owner .params = some params) (mem : root ∈ s.children params) :
      BindsPattern s owner root

/-- The text of a node is a name that is local to a body. -/
inductive Declares (s : Store) (owner : NodeId) : NodeId → Prop where
  | declaration {d : NodeId} (meets : s.Meets owner d) (kind_eq : s.kind d = .declaration)
      (named : (s.text? d).isSome) : Declares s owner d
  | function {d : NodeId} (meets : s.Meets owner d) (kind_eq : s.kind d = .function)
      (declared : Tree.isDeclaredFunction (s.head d)) (named : (s.text? d).isSome) :
      Declares s owner d
  | own (names : s.NamesItself owner) (named : (s.text? owner).isSome) : Declares s owner owner
  | pattern {root d : NodeId} (binds : s.BindsPattern owner root) (part : s.PatternPart root d)
      (kind_eq : s.kind d = .identifier) : Declares s owner d

theorem mem_text?_toList : x ∈ (s.text? id).toList ↔ (s.text? id).isSome ∧ s.text id = x := by
  rw [show s.text id = (s.text? id).getD "" from rfl]
  cases s.text? id <;> simp [eq_comm]

theorem mem_boundNames_child (hs : s.Forest) (role : Role) :
    x ∈ (((s.child? id role).map s.view).map Tree.boundNames).getD [] ↔
      ∃ root, s.child? id role = some root ∧ s.Binds root x := by
  cases s.child? id role with
  | none => simp
  | some root => simpa using mem_boundNames hs

/-- The names that a node declares of its own, kind by kind. -/
theorem mem_ownNames_view (hs : s.Forest) :
    x ∈ Tree.ownNames (s.isClause d) (s.view d) ↔
      (s.kind d = .function ∧ Tree.isDeclaredFunction (s.head d) ∧ (s.text? d).isSome ∧
        s.text d = x) ∨
      (s.kind d = .declaration ∧ ((s.text? d).isSome ∧ s.text d = x ∨
        ∃ root, s.child? d .names = some root ∧ s.Binds root x)) ∨
      (s.kind d = .catchClause ∧ ∃ root, s.child? d .exception = some root ∧ s.Binds root x) ∨
      (s.kind d = .forIn ∧ s.isClause d ∧
        ∃ root, s.child? d .iterator = some root ∧ s.Binds root x) := by
  rw [hs.view_eq_node, Tree.ownNames, show (s.head d).kind = s.kind d from rfl]
  split
  case h_1 hkind =>
      simp only [hkind, reduceCtorEq, false_and, or_false, true_and]
      split
      · simp only [*, true_and]
        exact mem_text?_toList
      · simp [*]
  case h_2 hkind =>
      simp only [hkind, reduceCtorEq, false_and, or_false, false_or, true_and]
      rw [Tree.declarationNames, List.mem_append, find?_view hs, mem_boundNames_child hs]
      exact or_congr_left mem_text?_toList
  case h_3 hkind =>
      simp only [hkind, reduceCtorEq, false_and, or_false, false_or, true_and, find?_view hs,
        mem_boundNames_child hs]
  case h_4 hkind =>
      simp only [hkind, reduceCtorEq, false_and, false_or, true_and]
      split
      · simp only [*, find?_view hs, mem_boundNames_child hs, true_and]
      · simp [*]
  case h_5 hfunction hdeclaration hcatch hforIn =>
      refine iff_of_false List.not_mem_nil ?_
      rintro (⟨hkind, -⟩ | ⟨hkind, -⟩ | ⟨hkind, -⟩ | ⟨hkind, -⟩)
      · exact hfunction hkind
      · exact hdeclaration hkind
      · exact hcatch hkind
      · exact hforIn hkind

theorem mem_declared_startScope : x ∈ (s.startScope owner).declared ↔
    s.NamesItself owner ∧ (s.text? owner).isSome ∧ s.text owner = x := by
  rw [startScope, NamesItself]
  by_cases hkind : s.kind owner = .function
  · rw [if_pos hkind, Tree.functionStart]
    simp only [hkind, true_and, Bool.and_eq_true, beq_iff_eq, Bool.not_eq_true']
    split
    case isTrue hnamed =>
        rw [and_iff_right hnamed]
        exact mem_text?_toList
    case isFalse hnamed => simp only [hnamed, false_and, List.not_mem_nil]
  · simp [hkind]

theorem mem_params_startScope (hs : s.Forest) : x ∈ (s.startScope owner).params ↔
    s.kind owner = .function ∧ ∃ params, s.child? owner .params = some params ∧
      ∃ root ∈ s.children params, s.Binds root x := by
  rw [startScope]
  by_cases hkind : s.kind owner = .function
  · rw [if_pos hkind, Tree.functionStart, find?_view hs, and_iff_right hkind]
    cases s.child? owner .params with
    | none => simp
    | some params =>
        simp only [Option.map_some, Option.getD_some, hs.children_view, List.mem_flatMap,
          List.mem_map, exists_exists_and_eq_and, mem_boundNames hs, Option.some.injEq,
          exists_eq_left']
  · simp [hkind]

theorem Binds.declares {root : NodeId} (h : s.Binds root x) (hroot : s.BindsPattern owner root) :
    ∃ d, s.Declares owner d ∧ s.text d = x :=
  have ⟨d, hpart, hkind, htext⟩ := h
  ⟨d, .pattern hroot hpart hkind, htext⟩

/-- The names that a node declares that a scan meets are local. -/
theorem Meets.declares (hs : s.Forest) (hd : s.Meets owner d)
    (hx : x ∈ Tree.ownNames (s.isClause d) (s.view d)) :
    ∃ e, s.Declares owner e ∧ s.text e = x := by
  rcases (mem_ownNames_view hs).mp hx with ⟨hkind, hdeclared, hnamed, htext⟩ |
    ⟨hkind, ⟨hnamed, htext⟩ | ⟨root, hroot, hbinds⟩⟩ | ⟨hkind, root, hroot, hbinds⟩ |
    ⟨hkind, hclause, root, hroot, hbinds⟩
  · exact ⟨d, .function hd hkind hdeclared hnamed, htext⟩
  · exact ⟨d, .declaration hd hkind hnamed, htext⟩
  · exact hbinds.declares (.names hd hkind hroot)
  · exact hbinds.declares (.exception hd hkind hroot)
  · exact hbinds.declares (.iterator hd hkind hclause hroot)

/-- The local names of a body are the texts of the nodes that bind them. -/
theorem isLocal_scope (hs : s.Forest) (h : s.Sound) (howner : s.OwnsBody owner) :
    (s.view owner).scope.isLocal x ↔ ∃ d, s.Declares owner d ∧ s.text d = x := by
  rw [Scope.isLocal_iff, mem_declared_scope hs h howner, params_scope hs h howner,
    mem_declared_startScope, mem_params_startScope hs]
  constructor
  · rintro ((⟨hown, hnamed, htext⟩ | ⟨d, hd, hx⟩) | ⟨hkind, params, hparams, root, hroot, hbinds⟩)
    · exact ⟨owner, .own hown hnamed, htext⟩
    · exact hd.declares hs hx
    · exact hbinds.declares (.parameter hkind hparams hroot)
  · rintro ⟨d, hd, rfl⟩
    cases hd with
    | declaration hd hkind hnamed =>
        exact .inl (.inr ⟨d, hd, (mem_ownNames_view hs).mpr
          (.inr (.inl ⟨hkind, .inl ⟨hnamed, rfl⟩⟩))⟩)
    | function hd hkind hdeclared hnamed =>
        exact .inl (.inr ⟨d, hd, (mem_ownNames_view hs).mpr
          (.inl ⟨hkind, hdeclared, hnamed, rfl⟩)⟩)
    | own hnames hnamed => exact .inl (.inl ⟨hnames, hnamed, rfl⟩)
    | @pattern root _ hroot hpart hname =>
        have hbinds : s.Binds root (s.text d) := ⟨d, hpart, hname, rfl⟩
        cases hroot with
        | names hd hkind hchild =>
            exact .inl (.inr ⟨_, hd, (mem_ownNames_view hs).mpr
              (.inr (.inl ⟨hkind, .inr ⟨root, hchild, hbinds⟩⟩))⟩)
        | exception hd hkind hchild =>
            exact .inl (.inr ⟨_, hd, (mem_ownNames_view hs).mpr
              (.inr (.inr (.inl ⟨hkind, root, hchild, hbinds⟩)))⟩)
        | iterator hd hkind hclause hchild =>
            exact .inl (.inr ⟨_, hd, (mem_ownNames_view hs).mpr
              (.inr (.inr (.inr ⟨hkind, hclause, root, hchild, hbinds⟩)))⟩)
        | parameter hkind hchild hmem => exact .inr ⟨hkind, _, hchild, root, hmem, hbinds⟩

end ScriptMin.Store
