import ScriptMin.Proofs.Store.Occurrences

/-!
Names of variables and the functions that bind them. A name is bound by the nearest function around
it whose scope has it as a local name. Where only the texts of nodes change, the same nodes name
variables, and the same nodes bind them.
-/

namespace ScriptMin.Store

variable {s s' : Store} {id owner root F G c d p x y : NodeId} {name : String}

/-! ### Names of variables -/

/-- The text of a node names a variable. That of the key of a property, of a property and of an
accessor does not. -/
inductive NamesVariable (s : Store) (x : NodeId) : Prop where
  | name (kind_eq : s.kind x = .identifier) (not_property : Locals.isPropertyName s x = false)
  | declaration (kind_eq : s.kind x = .declaration) (named : (s.text? x).isSome)
  | function (kind_eq : s.kind x = .function) (not_accessor : Tree.isAccessor (s.head x) = false)
      (named : (s.text? x).isSome)

theorem NamesVariable.named (h : s.Sound) (hx : s.NamesVariable x) : (s.text? x).isSome := by
  cases hx with
  | name hkind => exact (h.formed x).complete.text hkind
  | declaration _ hnamed => exact hnamed
  | function _ _ hnamed => exact hnamed

theorem NamesVariable.text?_eq (h : s.Sound) (hx : s.NamesVariable x) :
    s.text? x = some (s.text x) := by
  obtain ⟨name, hname⟩ := Option.isSome_iff_exists.mp (hx.named h)
  rw [show s.text x = (s.text? x).getD "" from rfl, hname]
  rfl

/-- A function is introduced by a declaration, so that its name belongs to the body around it. -/
def IsDeclared (s : Store) (x : NodeId) : Prop :=
  s.kind x = .function ∧ Tree.isDeclaredFunction (s.head x)

instance : Decidable (s.IsDeclared x) := inferInstanceAs (Decidable (_ ∧ _))

/-- A declared function is no accessor. -/
theorem IsDeclared.not_accessor (h : s.Sound) (hx : s.IsDeclared x) :
    Tree.isAccessor (s.head x) = false := by
  by_contra haccessor
  have hform := (h.formed x).complete.accessor (by simpa using haccessor)
  obtain ⟨-, hdeclared⟩ := hx
  rw [Tree.isDeclaredFunction, hform] at hdeclared
  cases hdeclared

/-! ### Functions that bind names -/

/-- The nearest function at a node or around it whose scope has a name as a local one. -/
def bindingFunction? (s : Store) (name : String) (id : NodeId) : Option NodeId :=
  (s.ancestry id).find? fun F => s.kind F == .function && (s.scope? F).any (·.isLocal name)

/-- The function that binds the name that is the text of a node, if there is one. -/
def functionOf? (s : Store) (x : NodeId) : Option NodeId :=
  if s.IsDeclared x then (s.parent? x).bind (s.bindingFunction? (s.text x))
  else s.bindingFunction? (s.text x) x

theorem bindingFunction?_of_not (hs : s.Forest)
    (hnot : ¬ (s.kind id = .function ∧ (s.scope? id).any (·.isLocal name))) :
    s.bindingFunction? name id = (s.parent? id).bind (s.bindingFunction? name) := by
  have hskip : ¬ (s.kind id == .function && (s.scope? id).any (·.isLocal name)) := by
    simpa only [Bool.and_eq_true, beq_iff_eq] using hnot
  cases hp : s.parent? id with
  | none =>
      rw [bindingFunction?, ancestry_of_none hp, List.find?_cons_of_neg]
      · rfl
      · exact hskip
  | some p =>
      rw [bindingFunction?, hs.ancestry_of_parent hp, List.find?_cons_of_neg]
      · rfl
      · exact hskip

namespace Forest

/-- What holds of the script, and of a function once it holds of the body around it, holds of all
functions. -/
theorem owner_induction (hs : s.Forest) {motive : NodeId → Prop} (hroot : motive s.root)
    (hstep : ∀ G F, s.Owner G → s.Within G s.root → s.kind F = .function → s.Inside G F →
      motive G → motive F) (hF : s.Owner F) (hwithin : s.Within F s.root) : motive F := by
  induction hn : s.lineLength F using Nat.strongRecOn generalizing F with
  | _ n ih =>
      by_cases heq : F = s.root
      · rwa [heq]
      obtain ⟨G, hG, hGwithin, hinside⟩ := hs.exists_inside hwithin heq
      exact hstep G F hG hGwithin (hF.resolve_left heq) hinside
        (ih _ (hn ▸ hinside.lineLength_lt hs) hG hGwithin rfl)

/-- A node above one below the root is below the root. -/
theorem within_root (hs : s.Forest) (hx : s.Within x s.root) (hy : s.Within x y) :
    s.Within y s.root := by
  rcases hx.total hy with hroot | hwithin
  · rcases hroot.cases with heq | ⟨p, hp, -⟩
    · exact heq ▸ .refl
    · rw [hs.root_parent] at hp
      cases hp
  · exact hwithin

end Forest

/-- No function binds a name at the top. -/
theorem bindingFunction?_root (hs : s.Forest) (h : s.Sound) :
    s.bindingFunction? name s.root = none := by
  rw [bindingFunction?_of_not hs, hs.root_parent, Option.bind_none]
  rw [h.root_kind]
  exact fun hand => absurd hand.1 (by decide)

section

variable (hs : s.Forest) (hscan : s.Scanned)

include hs hscan

theorem bindingFunction?_of_isLocal (hF : s.kind F = .function) (hwithin : s.Within F s.root)
    (hlocal : (s.view F).scope.isLocal name) : s.bindingFunction? name F = some F := by
  obtain ⟨above, habove⟩ := exists_ancestry_eq_cons hs F
  rw [bindingFunction?, habove, List.find?_cons_of_pos]
  simp [hF, hscan F (.inr hF) hwithin, hlocal]

/-- What a node inside a body does not bind itself is bound at the body or around it. -/
theorem bindingFunction?_of_inside (hx : s.Inside G x) (hwithin : s.Within x s.root)
    (hnot : s.kind x = .function → ¬ (s.view x).scope.isLocal name) :
    s.bindingFunction? name x = s.bindingFunction? name G := by
  have hskip : ∀ {x p}, s.parent? x = some p → s.Within x s.root →
      (s.kind x = .function → ¬ (s.view x).scope.isLocal name) →
      s.bindingFunction? name x = s.bindingFunction? name p := by
    intro x p hp hwithin hnot
    rw [bindingFunction?_of_not hs, hp, Option.bind_some]
    rintro ⟨hkind, hlocal⟩
    rw [hscan x (.inr hkind) hwithin] at hlocal
    exact hnot hkind hlocal
  induction hx with
  | child hc => exact hskip (hs.parent?_of_mem hc) hwithin hnot
  | @step d c hinside hfunction hc ih =>
      have hp := hs.parent?_of_mem hc
      rw [hskip hp hwithin hnot]
      exact ih (hs.within_root hwithin (within_of_parent hp)) fun hkind => absurd hkind hfunction

/-- The body that the name of a node belongs to is searched from its owner on. -/
theorem functionOf?_of_inside (hx : s.Inside G x) (hwithin : s.Within x s.root)
    (hdeclared : s.kind x = .function → s.IsDeclared x) :
    s.functionOf? x = s.bindingFunction? (s.text x) G := by
  rw [functionOf?]
  split
  · cases hx with
    | child hc => rw [hs.parent?_of_mem hc, Option.bind_some]
    | @step d _ hinside hfunction hc =>
        have hp := hs.parent?_of_mem hc
        rw [hp, Option.bind_some]
        exact bindingFunction?_of_inside hs hscan hinside
          (hs.within_root hwithin (within_of_parent hp)) fun hkind => absurd hkind hfunction
  case isFalse hnot =>
      exact bindingFunction?_of_inside hs hscan hx hwithin fun hkind =>
        absurd (hdeclared hkind) hnot

end

/-! ### Nodes that declare names -/

theorem BindsPattern.inside (h : s.Sound) (howner : s.OwnsBody owner)
    (hroot : s.BindsPattern owner root) : s.Inside owner root := by
  have hbelow : ∀ {d role}, s.Meets owner d → s.kind d ≠ .function → s.child? d role = some root →
      s.Inside owner root := fun hd hkind hchild =>
    .step (hd.inside h howner) hkind (mem_of_child? hchild)
  cases hroot with
  | names hd hkind hchild => exact hbelow hd (by simp [hkind]) hchild
  | exception hd hkind hchild => exact hbelow hd (by simp [hkind]) hchild
  | iterator hd hkind _ hchild => exact hbelow hd (by simp [hkind]) hchild
  | parameter hkind hchild hmem =>
      have hlist := h.kind_params hkind hchild
      exact .step (.child (mem_of_child? hchild)) (by simp [hlist]) hmem

theorem not_isPropertyName_of_parent (hp : s.parent? x = some p) (hdot : s.kind p ≠ .dot)
    (hproperty : s.kind p ≠ .propertyInit) : Locals.isPropertyName s x = false := by
  rw [Locals.isPropertyName, parentKind?, hp, Option.map_some]
  split
  case h_1 hkind => exact absurd (Option.some_inj.mp hkind) hdot
  case h_2 hkind => exact absurd (Option.some_inj.mp hkind) hproperty
  case h_3 => rfl

/-- What binds names is not the name of a property. -/
theorem BindsPattern.not_property (h : s.Sound) (hroot : s.BindsPattern owner root) :
    Locals.isPropertyName s root = false := by
  have hchild : ∀ {d}, root ∈ s.children d → s.kind d ≠ .dot → s.kind d ≠ .propertyInit →
      Locals.isPropertyName s root = false := fun hmem =>
    not_isPropertyName_of_parent (h.parent?_of_mem hmem)
  cases hroot with
  | names _ hkind hroot => exact hchild (mem_of_child? hroot) (by simp [hkind]) (by simp [hkind])
  | exception _ hkind hroot => exact hchild (mem_of_child? hroot) (by simp [hkind]) (by simp [hkind])
  | iterator _ hkind _ hroot =>
      exact hchild (mem_of_child? hroot) (by simp [hkind]) (by simp [hkind])
  | parameter hkind hparams hmem =>
      have hlist := h.kind_params hkind hparams
      exact hchild hmem (by simp [hlist]) (by simp [hlist])

/-- No name in a pattern is the name of a property. -/
theorem PatternPart.not_property (h : s.Sound) (hroot : s.BindsPattern owner root)
    (hpart : s.PatternPart root d) : Locals.isPropertyName s d = false := by
  cases hpart with
  | root => exact hroot.not_property h
  | element _ hkind hmem =>
      exact not_isPropertyName_of_parent (h.parent?_of_mem hmem) (by simp [hkind]) (by simp [hkind])
  | @value e property _ _ hkind hmem hnth =>
      have hp := h.parent?_of_mem (mem_of_nth? hnth)
      obtain ⟨i, -, hhosts⟩ := h.hosts hmem
      rw [Head.Hosts, show (s.head e).kind = .objectInit from hkind] at hhosts
      rcases hhosts with hproperty | ⟨hfunction, -⟩
      · rw [Locals.isPropertyName, parentKind?, hp, Option.map_some,
          show s.kind property = .propertyInit from hproperty, h.indexOf?_of_nth? hnth]
        rfl
      · have hfunction' : s.kind property = .function := hfunction
        exact not_isPropertyName_of_parent hp (by simp [hfunction']) (by simp [hfunction'])

/-- No function is between a name in a pattern and the pattern. -/
theorem PatternPart.inside (h : s.Sound) (hpart : s.PatternPart root d)
    (hd : (s.kind d).inPattern) (hroot : s.Inside owner root) : s.Inside owner d := by
  induction hpart with
  | root => exact hroot
  | element _ hkind hmem ih => exact .step (ih (by rw [hkind]; rfl)) (by simp [hkind]) hmem
  | @value e property c _ hkind hmem hnth ih =>
      have hinside := Inside.step (ih (by rw [hkind]; rfl)) (by simp [hkind]) hmem
      refine .step hinside (fun hfunction => ?_) (mem_of_nth? hnth)
      rcases h.hosts_function hfunction (mem_of_nth? hnth) with ⟨-, hbad⟩ | ⟨-, hbad⟩ <;>
        rw [hbad] at hd <;> cases hd

theorem Declares.namesVariable (h : s.Sound) (hd : s.Declares owner d) : s.NamesVariable d := by
  cases hd with
  | declaration _ hkind hnamed => exact .declaration hkind hnamed
  | function _ hkind hdeclared hnamed =>
      exact .function hkind (IsDeclared.not_accessor h ⟨hkind, hdeclared⟩) hnamed
  | own hnames hnamed => exact .function hnames.1 hnames.2.2 hnamed
  | pattern hroot hpart hkind => exact .name hkind (hpart.not_property h hroot)

/-- A node that declares a name in a body is inside the body, other than a function that is named
inside itself. -/
theorem Declares.cases_inside (h : s.Sound) (howner : s.OwnsBody owner) (hd : s.Declares owner d) :
    d = owner ∧ s.kind owner = .function ∧ ¬ s.IsDeclared owner ∨
      s.Inside owner d ∧ (s.kind d = .function → s.IsDeclared d) := by
  cases hd with
  | declaration hd hkind =>
      exact .inr ⟨hd.inside h howner, fun hfunction => by simp [hkind] at hfunction⟩
  | function hd hkind hdeclared => exact .inr ⟨hd.inside h howner, fun _ => ⟨hkind, hdeclared⟩⟩
  | own hnames =>
      refine .inl ⟨rfl, hnames.1, fun hdeclared => ?_⟩
      have hform := hdeclared.2
      rw [Tree.isDeclaredFunction, hnames.2.1] at hform
      cases hform
  | pattern hroot hpart hkind =>
      exact .inr ⟨hpart.inside h (by rw [hkind]; rfl) (hroot.inside h howner),
        fun hfunction => by simp [hkind] at hfunction⟩

/-- The text of a node that names a variable is a local name of the body that the node belongs to,
or the body uses it. -/
theorem NamesVariable.local_or_shared (hs : s.Forest) (h : s.Sound) (howner : s.OwnsBody owner)
    (hx : s.NamesVariable x) (hinside : s.Inside owner x)
    (hdeclared : s.kind x = .function → s.IsDeclared x) :
    (s.view owner).scope.isLocal (s.text x) ∨ (s.view owner).scope.Shares (s.text x) := by
  have hmeets := hinside.meets h howner
  cases hx with
  | name hkind hproperty =>
      rcases hinside.name_cases h howner hkind hproperty with hmeets | hdeclares
      · by_cases hlocal : (s.view owner).scope.isLocal (s.text x)
        · exact .inl hlocal
        · exact .inr (shares_name hs h howner hmeets hkind hlocal)
      · exact .inl ((isLocal_scope hs h howner).mpr ⟨x, hdeclares, rfl⟩)
  | declaration hkind hnamed =>
      have hd := hmeets (by rw [hkind]; rfl)
      exact .inl ((isLocal_scope hs h howner).mpr ⟨x, .declaration hd hkind hnamed, rfl⟩)
  | function hkind _ hnamed =>
      have hd := hmeets (by rw [hkind]; rfl)
      exact .inl ((isLocal_scope hs h howner).mpr
        ⟨x, .function hd hkind (hdeclared hkind).2 hnamed, rfl⟩)

/-- A function that is part of an expression and no accessor has its name as a local one. -/
theorem NamesVariable.isLocal_own (hs : s.Forest) (h : s.Sound) (hx : s.NamesVariable x)
    (hkind : s.kind x = .function) (hdeclared : ¬ s.IsDeclared x) :
    (s.view x).scope.isLocal (s.text x) := by
  have hform : (s.head x).form = some .expressed := by
    have hsome := (h.formed x).complete.form hkind
    cases hform : (s.head x).form with
    | none => simp [hform] at hsome
    | some form =>
        cases form with
        | expressed => rfl
        | declared | nested =>
            refine absurd ⟨hkind, ?_⟩ hdeclared
            rw [Tree.isDeclaredFunction, hform]
            rfl
  cases hx with
  | name hname => simp [hkind] at hname
  | declaration hname => simp [hkind] at hname
  | function _ haccessor hnamed =>
      exact (isLocal_scope hs h (.inl hkind)).mpr ⟨x, .own ⟨hkind, hform, haccessor⟩ hnamed, rfl⟩

/-! ### Stores that differ in texts -/

/-- Two stores differ in nothing but texts and scopes, and the same nodes have texts. -/
structure Reworded (s s' : Store) : Prop where
  size_eq : s'.size = s.size
  root_eq : s'.root = s.root
  parent_eq : s'.parent? = s.parent?
  children_eq : s'.children = s.children
  head_eq : ∀ x, s'.head x = { s.head x with payload := (s'.head x).payload }
  isSome_text? : ∀ x, (s'.text? x).isSome = (s.text? x).isSome

namespace Reworded

theorem symm (h : s.Reworded s') : s'.Reworded s where
  size_eq := h.size_eq.symm
  root_eq := h.root_eq.symm
  parent_eq := h.parent_eq.symm
  children_eq := h.children_eq.symm
  head_eq x := by rw [h.head_eq x]
  isSome_text? x := (h.isSome_text? x).symm

variable (h : s.Reworded s')

include h

theorem kind_eq : s'.kind = s.kind := by
  funext x
  rw [kind, h.head_eq]
  rfl

theorem role_eq : s'.role? = s.role? := by
  funext x
  rw [role?, h.head_eq]
  rfl

theorem isDeclaredFunction_eq :
    Tree.isDeclaredFunction (s'.head x) = Tree.isDeclaredFunction (s.head x) := by
  rw [h.head_eq]
  rfl

theorem isAccessor_eq : Tree.isAccessor (s'.head x) = Tree.isAccessor (s.head x) := by
  rw [h.head_eq]
  rfl

theorem child?_eq : s'.child? = s.child? := by
  funext x role
  rw [child?, child?, h.children_eq, h.role_eq]

theorem nth?_eq : s'.nth? = s.nth? := by
  funext x i
  rw [nth?, nth?, h.children_eq]

theorem parentKind?_eq : s'.parentKind? = s.parentKind? := by
  funext x
  rw [parentKind?, parentKind?, h.parent_eq, h.kind_eq]

theorem isPropertyName_eq : Locals.isPropertyName s' = Locals.isPropertyName s := by
  funext x
  simp only [Locals.isPropertyName, indexOf?, h.parentKind?_eq, h.parent_eq, h.children_eq]

theorem scanBelow_eq : s'.scanBelow = s.scanBelow := by
  funext x
  simp only [scanBelow, scannedChildren, h.kind_eq, h.children_eq, h.child?_eq, h.nth?_eq]

theorem scannedChildren_eq : s'.scannedChildren = s.scannedChildren := by
  funext x
  simp only [scannedChildren, h.kind_eq, h.children_eq, h.child?_eq, h.nth?_eq]

theorem within_iff : s'.Within x y ↔ s.Within x y := by
  rw [Within, h.parent_eq]
  rfl

theorem owner_iff : s'.Owner x ↔ s.Owner x := by rw [Owner, Owner, h.root_eq, h.kind_eq]

theorem isDeclared_iff : s'.IsDeclared x ↔ s.IsDeclared x := by
  rw [IsDeclared, IsDeclared, h.kind_eq, h.isDeclaredFunction_eq]

theorem namesItself_iff : s'.NamesItself x ↔ s.NamesItself x := by
  rw [NamesItself, NamesItself, h.kind_eq, h.isAccessor_eq, h.head_eq]

theorem inside (hx : s.Inside owner x) : s'.Inside owner x := by
  induction hx with
  | child hc => exact .child (h.children_eq ▸ hc)
  | step _ hfunction hc ih => exact .step ih (h.kind_eq ▸ hfunction) (h.children_eq ▸ hc)

theorem meets (hd : s.Meets owner d) : s'.Meets owner d := by
  induction hd with
  | top hc => exact .top (h.scannedChildren_eq ▸ hc)
  | next _ hc ih => exact .next ih (h.scanBelow_eq ▸ hc)

theorem patternPart (hpart : s.PatternPart root d) : s'.PatternPart root d := by
  induction hpart with
  | root => exact .root
  | element _ hkind hmem ih => exact .element ih (h.kind_eq ▸ hkind) (h.children_eq ▸ hmem)
  | value _ hkind hmem hnth ih =>
      exact .value ih (h.kind_eq ▸ hkind) (h.children_eq ▸ hmem) (h.nth?_eq ▸ hnth)

theorem bindsPattern (hroot : s.BindsPattern owner root) : s'.BindsPattern owner root := by
  cases hroot with
  | names hd hkind hchild => exact .names (h.meets hd) (h.kind_eq ▸ hkind) (h.child?_eq ▸ hchild)
  | exception hd hkind hchild =>
      exact .exception (h.meets hd) (h.kind_eq ▸ hkind) (h.child?_eq ▸ hchild)
  | iterator hd hkind hclause hchild =>
      refine .iterator (h.meets hd) (h.kind_eq ▸ hkind) ?_ (h.child?_eq ▸ hchild)
      rwa [isClause, h.parentKind?_eq]
  | parameter hkind hchild hmem =>
      exact .parameter (h.kind_eq ▸ hkind) (h.child?_eq ▸ hchild) (h.children_eq ▸ hmem)

/-- The same nodes declare names. -/
theorem declares (hd : s.Declares owner d) : s'.Declares owner d := by
  cases hd with
  | declaration hd hkind hnamed =>
      exact .declaration (h.meets hd) (h.kind_eq ▸ hkind) ((h.isSome_text? _).trans hnamed)
  | function hd hkind hdeclared hnamed =>
      exact .function (h.meets hd) (h.kind_eq ▸ hkind) (h.isDeclaredFunction_eq.trans hdeclared)
        ((h.isSome_text? _).trans hnamed)
  | own hnames hnamed => exact .own (h.namesItself_iff.mpr hnames) ((h.isSome_text? _).trans hnamed)
  | pattern hroot hpart hkind =>
      exact .pattern (h.bindsPattern hroot) (h.patternPart hpart) (h.kind_eq ▸ hkind)

theorem declares_iff : s'.Declares owner d ↔ s.Declares owner d := ⟨h.symm.declares, h.declares⟩

/-- The same nodes name variables. -/
theorem namesVariable_iff : s'.NamesVariable x ↔ s.NamesVariable x := by
  have hmp : ∀ {s s' : Store}, s.Reworded s' → s.NamesVariable x → s'.NamesVariable x := by
    intro s s' h hx
    cases hx with
    | name hkind hproperty => exact .name (h.kind_eq ▸ hkind) (h.isPropertyName_eq ▸ hproperty)
    | declaration hkind hnamed =>
        exact .declaration (h.kind_eq ▸ hkind) ((h.isSome_text? _).trans hnamed)
    | function hkind haccessor hnamed =>
        exact .function (h.kind_eq ▸ hkind) (h.isAccessor_eq.trans haccessor)
          ((h.isSome_text? _).trans hnamed)
  exact ⟨hmp h.symm, hmp h⟩

end Reworded

end ScriptMin.Store
