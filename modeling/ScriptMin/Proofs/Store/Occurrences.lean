import ScriptMin.Proofs.Store.Binders

/-!
Occurrences of variables. A name is one if it is neither the name of a property nor part of something
that binds names. The scan of a body meets exactly the variables that are inside it.
-/

namespace ScriptMin.Store

variable {s : Store} {id owner root c d p x y : NodeId}

/-! ### Places that bind names -/

/-- A child of a node binds names: it is a list of parameters, a caught exception or the pattern of
a declaration. -/
def BindsAt (s : Store) (p c : NodeId) : Prop :=
  match s.kind p with
  | .function => s.role? c = some .params
  | .catchClause => s.role? c = some .exception
  | .declaration => s.role? c = some .names
  | _ => False

/-- A node is part of something that binds names. -/
def Bound (s : Store) (x : NodeId) : Prop :=
  ∃ y p, s.Within x y ∧ s.parent? y = some p ∧ s.BindsAt p y

theorem bound_iff : s.Bound x ↔ ∃ p, s.parent? x = some p ∧ (s.BindsAt p x ∨ s.Bound p) := by
  constructor
  · rintro ⟨y, p, hwithin, hp, hbinds⟩
    rcases hwithin.cases with rfl | ⟨q, hq, hwithin⟩
    · exact ⟨p, hp, .inl hbinds⟩
    · exact ⟨q, hq, .inr ⟨y, p, hwithin, hp, hbinds⟩⟩
  · rintro ⟨p, hp, hbinds | ⟨y, q, hwithin, hq, hbinds⟩⟩
    · exact ⟨x, p, .refl, hp, hbinds⟩
    · exact ⟨y, q, (within_of_parent hp).trans hwithin, hq, hbinds⟩

/-- A name stands for a variable. -/
structure IsVariable (s : Store) (x : NodeId) : Prop where
  kind_eq : s.kind x = .identifier
  not_property : Locals.isPropertyName s x = false
  not_bound : ¬ s.Bound x

/-! ### Patterns -/

theorem IsPattern.inPattern_of_within (h : s.Sound) (hy : s.IsPattern y) (hx : s.Within x y) :
    (s.kind x).inPattern := by
  suffices s.IsPattern x ∨ (∃ e, s.kind e = .objectInit ∧ s.IsPattern e ∧ x ∈ s.children e) ∨
      (s.kind x).isKey by
    rcases this with hpattern | ⟨e, hkind, hpattern, hmem⟩ | hkey
    · exact hpattern.inPattern
    · cases hpattern with
      | leaf hleaf => simp [hkind] at hleaf
      | array harray => simp [hkind] at harray
      | object _ hfields =>
          rw [hfields x hmem]
          rfl
    · exact Kind.inPattern_of_isKey hkey
  induction hx using Relation.ReflTransGen.head_induction_on with
  | refl => exact .inl hy
  | @head x q hq _ ih =>
      have hmem := (h.linked q x).mpr hq
      rcases ih with hpattern | ⟨e, hkind, hpattern, hfield⟩ | hkey
      · cases hpattern with
        | leaf hleaf =>
            rcases hleaf with hleaf | hleaf
            · rw [h.children_of_key (by rw [hleaf]; rfl)] at hmem
              cases hmem
            · rw [h.children_of_hole hleaf] at hmem
              cases hmem
        | array _ hchildren => exact .inl (hchildren x hmem)
        | object hkind hfields hvalues =>
            exact .inr (.inl ⟨q, hkind, .object hkind hfields hvalues, hmem⟩)
      · cases hpattern with
        | leaf hleaf => simp [hkind] at hleaf
        | array harray => simp [hkind] at harray
        | object _ hfields hvalues =>
            obtain ⟨i, hi, hhosts⟩ := h.hosts hmem
            rw [Head.Hosts, show (s.head q).kind = .propertyInit from hfields q hfield] at hhosts
            rcases hhosts with ⟨-, hkey, -⟩ | rfl
            · exact .inr (.inr hkey)
            · exact .inl (hvalues q hfield x hi)
      · rw [h.children_of_key hkey] at hmem
        cases hmem

/-- Parts of what binds names are patterns, if they are not the list of parameters. -/
theorem Sound.kind_of_bound (h : s.Sound) (hx : s.Bound x) :
    (s.kind x).inPattern ∨ s.kind x = .list := by
  obtain ⟨y, p, hwithin, hp, hbinds⟩ := hx
  have hmem := (h.linked p y).mpr hp
  have hpattern : ∀ {p y}, y ∈ s.children p → (s.head p).binds (s.head y) → s.Within x y →
      (s.kind x).inPattern := fun hmem hbinds hwithin =>
    ((h.formed _).patterns _ hmem hbinds).inPattern_of_within h hwithin
  rw [BindsAt] at hbinds
  split at hbinds
  case h_1 hkind =>
      have hrole : ¬ s.role? y = some .body := by simp [hbinds]
      have hlist := ((h.hosts_function hkind hmem).resolve_right fun hbody => hrole hbody.1).2
      rcases Relation.ReflTransGen.cases_tail hwithin with heq | ⟨c, hwithin, hc⟩
      · exact .inr (heq ▸ hlist)
      · refine .inl (hpattern ((h.linked y c).mpr hc) ?_ hwithin)
        rw [Head.binds, show (s.head y).kind = .list from hlist]
        exact beq_iff_eq.mpr hbinds
  case h_2 hkind | h_3 hkind =>
      refine .inl (hpattern hmem ?_ hwithin)
      rw [Head.binds, show (s.head p).kind = s.kind p from rfl, hkind]
      exact beq_iff_eq.mpr hbinds
  case h_4 => exact hbinds.elim

theorem Sound.not_bound_of_ownsBody (h : s.Sound) (howner : s.OwnsBody owner) : ¬ s.Bound owner := by
  intro hbound
  rcases h.kind_of_bound hbound with hkind | hkind <;> rcases howner with howner | howner <;>
    rw [howner] at hkind <;> cases hkind

/-! ### What scans meet -/

/-- A node that a scan meets is a child of a script or of another one that the scan meets. -/
theorem Meets.cases (h : s.Sound) (howner : s.OwnsBody owner) (hd : s.Meets owner d) :
    (∃ body, s.kind body = .script ∧ d ∈ s.children body) ∨
      ∃ e, s.Meets owner e ∧ d ∈ s.scanBelow e := by
  cases hd with
  | top hc =>
      obtain ⟨body, hkind, hchildren⟩ := h.exists_script howner
      exact .inl ⟨body, hkind, hchildren _ hc⟩
  | next hmeets hc => exact .inr ⟨_, hmeets, hc⟩

/-- A scan does not go into what binds names. -/
theorem not_bindsAt_of_scanBelow (hc : c ∈ s.scanBelow d) : ¬ s.BindsAt d c := by
  intro hbinds
  rw [scanBelow] at hc
  split at hc
  · cases hc
  case isFalse hnot =>
      rw [BindsAt] at hbinds
      rw [scannedChildren] at hc
      split at hbinds
      case h_1 hkind => exact hnot (.inr hkind)
      case h_2 hkind =>
          simp only [hkind, List.mem_append, Option.mem_toList] at hc
          rcases hc with hc | hc <;> rw [role?_of_child? hc] at hbinds <;> cases hbinds
      case h_3 hkind =>
          simp only [hkind, Option.mem_toList] at hc
          rw [role?_of_child? hc] at hbinds
          cases hbinds
      case h_4 => exact hbinds

theorem Meets.not_bound (h : s.Sound) (howner : s.OwnsBody owner) (hd : s.Meets owner d) :
    ¬ s.Bound d := by
  induction hd with
  | @top c hc =>
      obtain ⟨body, hkind, hchildren⟩ := h.exists_script howner
      intro hbound
      obtain ⟨p, hp, hbinds⟩ := bound_iff.mp hbound
      obtain rfl := Option.some_inj.mp ((h.parent?_of_mem (hchildren c hc)).symm.trans hp)
      rcases hbinds with hbinds | hbound
      · rwa [BindsAt, hkind] at hbinds
      · exact h.not_bound_of_ownsBody (.inr hkind) hbound
  | @next d c _ hc ih =>
      intro hbound
      obtain ⟨p, hp, hbinds⟩ := bound_iff.mp hbound
      obtain rfl :=
        Option.some_inj.mp ((h.parent?_of_mem (mem_children_of_scanBelow hc)).symm.trans hp)
      exact hbinds.elim (not_bindsAt_of_scanBelow hc) ih

/-- A scan does not go to the names of properties. -/
theorem Meets.not_property (h : s.Sound) (howner : s.OwnsBody owner) (hd : s.Meets owner d) :
    Locals.isPropertyName s d = false := by
  rcases hd.cases h howner with ⟨body, hkind, hmem⟩ | ⟨e, -, hmem⟩
  · rw [Locals.isPropertyName, parentKind?, h.parent?_of_mem hmem, Option.map_some, hkind]
  · have hparent := h.parent?_of_mem (mem_children_of_scanBelow hmem)
    rw [Locals.isPropertyName, parentKind?, hparent, Option.map_some]
    rw [scanBelow] at hmem
    split at hmem
    · cases hmem
    rw [scannedChildren] at hmem
    split
    case h_1 hkind =>
        simp only [Option.some_inj.mp hkind, Option.mem_toList] at hmem
        simp [h.indexOf?_of_nth? hmem]
    case h_2 hkind =>
        simp only [Option.some_inj.mp hkind, Option.mem_toList] at hmem
        simp [h.indexOf?_of_nth? hmem]
    case h_3 => rfl

theorem Meets.isVariable (h : s.Sound) (howner : s.OwnsBody owner) (hd : s.Meets owner d)
    (hkind : s.kind d = .identifier) : s.IsVariable d :=
  ⟨hkind, hd.not_property h howner, hd.not_bound h howner⟩

/-- A scan goes into a pattern that it meets. -/
theorem PatternPart.meets (h : s.Sound) (hpart : s.PatternPart root d) (hroot : s.Meets owner root)
    (hd : (s.kind d).inPattern) : s.Meets owner d := by
  have hbelow : ∀ {e}, s.kind e = .arrayInit ∨ s.kind e = .objectInit →
      s.scanBelow e = s.children e := by
    intro e hkind
    rw [scanBelow, if_neg (by rcases hkind with hkind | hkind <;> simp [hkind]),
      scannedChildren_eq] <;> rcases hkind with hkind | hkind <;> simp [hkind]
  induction hpart with
  | root => exact hroot
  | element _ hkind hmem ih =>
      exact (ih (by rw [hkind]; rfl)).next (by rwa [hbelow (.inl hkind)])
  | @value e property c _ hkind hmem hnth ih =>
      have hmeets := (ih (by rw [hkind]; rfl)).next (c := property) (by rwa [hbelow (.inr hkind)])
      obtain ⟨i, -, hhosts⟩ := h.hosts hmem
      rw [Head.Hosts, show (s.head e).kind = .objectInit from hkind] at hhosts
      -- A method in an object literal has no part that can be in a pattern.
      rcases hhosts with hproperty | ⟨hfunction, -⟩
      · rw [show (s.head property).kind = s.kind property from rfl] at hproperty
        refine hmeets.next ?_
        rw [scanBelow, if_neg (by simp [hproperty]), scannedChildren, hproperty]
        exact Option.mem_toList.mpr hnth
      · rcases h.hosts_function hfunction (mem_of_nth? hnth) with ⟨-, hbad⟩ | ⟨-, hbad⟩ <;>
          rw [hbad] at hd <;> cases hd

theorem PatternPart.within (hs : s.Linked) (hpart : s.PatternPart root d) : s.Within d root := by
  induction hpart with
  | root => exact .refl
  | element _ _ hmem ih => exact (within_of_parent (hs.parent?_of_mem hmem)).trans ih
  | value _ _ hmem hnth ih =>
      exact ((within_of_parent (hs.parent?_of_mem (mem_of_nth? hnth))).trans
        (within_of_parent (hs.parent?_of_mem hmem))).trans ih

/-- The scan of a body meets all variables inside it. -/
theorem IsVariable.meets (h : s.Sound) (howner : s.OwnsBody owner) (hx : s.IsVariable x)
    (hinside : s.Inside owner x) : s.Meets owner x := by
  rcases hinside.name_cases h howner hx.kind_eq hx.not_property with hmeets | hdeclares
  · exact hmeets
  have hbound : ∀ {root p}, s.PatternPart root x → root ∈ s.children p → s.BindsAt p root →
      s.Meets owner x := fun hpart hmem hbinds =>
    absurd ⟨_, _, hpart.within h.toLinked, h.parent?_of_mem hmem, hbinds⟩ hx.not_bound
  cases hdeclares with
  | declaration _ hkind => simp [hx.kind_eq] at hkind
  | function _ hkind => simp [hx.kind_eq] at hkind
  | own hnames => exact absurd (hx.kind_eq.symm.trans hnames.1) (by simp)
  | pattern hroot hpart hname =>
      cases hroot with
      | names _ hkind hchild =>
          refine hbound hpart (mem_of_child? hchild) ?_
          rw [BindsAt, hkind]
          exact role?_of_child? hchild
      | exception _ hkind hchild =>
          refine hbound hpart (mem_of_child? hchild) ?_
          rw [BindsAt, hkind]
          exact role?_of_child? hchild
      | iterator hmeets hkind _ hchild =>
          refine hpart.meets h (hmeets.next ?_) (by rw [hname]; rfl)
          rw [scanBelow, if_neg (by simp [hkind]), scannedChildren_eq] <;>
            first | exact mem_of_child? hchild | simp [hkind]
      | @parameter params root hkind hchild hmem =>
          refine absurd ⟨params, owner, ?_, h.parent?_of_mem (mem_of_child? hchild), ?_⟩ hx.not_bound
          · exact (hpart.within h.toLinked).trans (within_of_parent (h.parent?_of_mem hmem))
          · rw [BindsAt, hkind]
            exact role?_of_child? hchild

end ScriptMin.Store
