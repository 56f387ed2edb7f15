import ScriptMin.Proofs.Pass.Thinning
import ScriptMin.Proofs.Store.Binders

/-!
Local names in stores that lose what is not needed. The names that are not idle in a body stay
local to it, and no other names become local.
-/

namespace ScriptMin

theorem Kind.isOperation_of_inPattern {kind : Kind} (h : kind.inPattern) : kind.isOperation := by
  cases kind <;> first | rfl | cases h

namespace Store

variable {s s' : Store} {id root F G c d p x y : NodeId} {name : String}

/-! ### Patterns -/

theorem not_inFrame_of_inPattern (h : s.Sound) (hx : (s.kind x).inPattern) : ¬ s.InFrame x := by
  rintro ⟨F, hF, hfunction⟩
  rcases h.hosts_function hfunction ((h.linked F x).mpr hF) with ⟨-, hkind⟩ | ⟨-, hkind⟩ <;>
    rw [hkind] at hx <;> cases hx

/-- A pattern has the same parts where the nodes of patterns that are reached have the same
children. -/
theorem PatternPart.congr_reached {P : NodeId → Prop} (h : s.Sound) (hsame : ∀ y, P y →
    (s.kind y).inPattern → s'.kind y = s.kind y ∧ s'.children y = s.children y ∧
      ∀ c ∈ s.children y, P c) (hroot : P root) (hpart : s.PatternPart root d)
    (hd : (s.kind d).inPattern) : s'.PatternPart root d ∧ P d := by
  induction hpart with
  | root => exact ⟨.root, hroot⟩
  | @element id c _ hkind hmem ih =>
      have hid : (s.kind id).inPattern := by rw [hkind]; rfl
      obtain ⟨hpart, hP⟩ := ih hid
      obtain ⟨hkind', hrow, hbelow⟩ := hsame id hP hid
      exact ⟨.element hpart (hkind'.trans hkind) (hrow ▸ hmem), hbelow c hmem⟩
  | @value id property c _ hkind hmem hnth ih =>
      have hid : (s.kind id).inPattern := by rw [hkind]; rfl
      obtain ⟨hpart, hP⟩ := ih hid
      obtain ⟨hkind', hrow, hbelow⟩ := hsame id hP hid
      -- A method in an object literal has no part that can be in a pattern.
      have hproperty : s.kind property = .propertyInit := by
        obtain ⟨i, -, hhosts⟩ := h.hosts hmem
        rw [Head.Hosts, show (s.head id).kind = .objectInit from hkind] at hhosts
        refine hhosts.resolve_right fun hfunction => ?_
        rcases h.hosts_function hfunction.1 (mem_of_nth? hnth) with ⟨-, hbad⟩ | ⟨-, hbad⟩ <;>
          rw [hbad] at hd <;> cases hd
      obtain ⟨-, hrow', hbelow'⟩ := hsame property (hbelow property hmem) (by rw [hproperty]; rfl)
      refine ⟨.value hpart (hkind'.trans hkind) (hrow ▸ hmem) ?_, hbelow' c (mem_of_nth? hnth)⟩
      rwa [nth?, hrow']

theorem PatternPart.congr (h : s.Sound) (hsame : ∀ y, (s.kind y).inPattern →
    s'.kind y = s.kind y ∧ s'.children y = s.children y) (hpart : s.PatternPart root d)
    (hd : (s.kind d).inPattern) : s'.PatternPart root d :=
  (hpart.congr_reached (P := fun _ => True) h (fun y _ hy =>
    have ⟨hkind, hrow⟩ := hsame y hy
    ⟨hkind, hrow, fun _ _ => trivial⟩) trivial hd).1

/-- A name has no parts but itself. -/
theorem PatternPart.eq_of_identifier (hpart : s.PatternPart root d)
    (hkind : s.kind root = .identifier) : d = root := by
  induction hpart with
  | root => rfl
  | element _ harray _ ih =>
      rw [ih, hkind] at harray
      cases harray
  | value _ hobject _ _ ih =>
      rw [ih, hkind] at hobject
      cases hobject

/-- A pattern that has a name as a part is of a kind that patterns are of. -/
theorem PatternPart.inPattern_root (hpart : s.PatternPart root d) (hd : (s.kind d).inPattern) :
    (s.kind root).inPattern := by
  induction hpart with
  | root => exact hd
  | element _ hkind _ ih => exact ih (by rw [hkind]; rfl)
  | value _ hkind _ _ ih => exact ih (by rw [hkind]; rfl)

/-! ### Nodes that do not leave their parents -/

theorem Sound.fast_of_inPattern (hs : s.Sound) (hc : (s.kind c).inPattern) (hp : s.kind p ≠ .varList)
    (hrole : s.kind p = .declaration → s.role? c ≠ some .initializer)
    (hlist : s.kind p = .list → s.kind c ≠ .identifier) : s.Fast c p where
  not_list hkind := by
    rw [hkind] at hc
    cases hc
  not_function hfunction := by
    rw [hfunction.1] at hc
    cases hc
  not_listed := hp
  not_initializer hand := hrole hand.1 hand.2
  parameter G hG hchild hname := absurd hname (hlist (hs.kind_params hG hchild))

namespace Thins

variable (h : Thins s s') (hs : s.Sound)

include h hs

theorem same_of_inPattern (hy : (s.kind y).inPattern) :
    s'.kind y = s.kind y ∧ s'.children y = s.children y := by
  have hlt : y < s.size := by
    refine lt_of_kind fun hscript => ?_
    rw [hscript] at hy
    cases hy
  exact ⟨h.kind_eq hlt,
    h.row y hlt (Kind.isOperation_of_inPattern hy) (not_inFrame_of_inPattern hs hy)⟩

omit hs in
theorem lt_of_inPattern (hy : (s'.kind y).inPattern) : y < s.size := by
  refine h.not_new ?_ ?_ <;>
    intro hkind <;> rw [hkind] at hy <;> cases hy

theorem same_back_of_inPattern (hy : (s'.kind y).inPattern) :
    s.kind y = s'.kind y ∧ s.children y = s'.children y := by
  have hkind := h.kind_eq (h.lt_of_inPattern hy)
  obtain ⟨-, hrow⟩ := h.same_of_inPattern hs (hkind ▸ hy)
  exact ⟨hkind.symm, hrow.symm⟩

/-! ### Nodes that bind names -/

/-- Patterns that bind names stay, but for parameters. -/
theorem bindsPattern_of (hG : s.Owner G) (hroot : s.BindsPattern G root)
    (hpattern : (s.kind root).inPattern)
    (hstays : ∀ params, s.kind G = .function → s.child? G .params = some params →
      root ∈ s.children params → s'.parent? root = some params) : s'.BindsPattern G root := by
  have howner := hG.ownsBody hs
  have howner' := h.ownsBody howner (hG.lt hs.toLinked)
  have hs' := h.evolves.sound
  have hmeets : ∀ {d}, s.Meets G d → s.Lasting d → (s.kind d).isPlaced = false → s'.Meets G d := by
    intro d hd hlasting hplaced
    have hinside := hd.inside hs howner
    refine (h.lasting G d howner hinside hlasting).meets hs' howner' ?_
    rwa [h.kind_eq (hinside.lt hs.toLinked)]
  have hchild : ∀ {d role}, (s.kind d).hasRoles → s.child? d role = some root →
      s.kind d ≠ .varList → s.kind d ≠ .list → role ≠ .initializer →
      s'.child? d role = some root := by
    intro d role hroles hchild hlist hparams hrole
    refine h.child? hs.toLinked (lt_of_mem_children (mem_of_child? hchild)) hroles hchild ?_
    refine hs.fast_of_inPattern hpattern hlist (fun _ => ?_) fun heq => absurd heq hparams
    rw [role?_of_child? hchild]
    simpa using hrole
  cases hroot with
  | @names d _ hd hkind hnames =>
      refine .names (hmeets hd (.patterned hkind hnames) (by rw [hkind]; rfl)) ?_ ?_
      · rw [h.kind_eq ((hd.inside hs howner).lt hs.toLinked), hkind]
      · exact hchild (by rw [hkind]; rfl) hnames (by simp [hkind]) (by simp [hkind]) (by simp)
  | @exception d _ hd hkind hexception =>
      refine .exception (hmeets hd (.construct (.inl hkind)) (by rw [hkind]; rfl)) ?_ ?_
      · rw [h.kind_eq ((hd.inside hs howner).lt hs.toLinked), hkind]
      · exact hchild (by rw [hkind]; rfl) hexception (by simp [hkind]) (by simp [hkind]) (by simp)
  | @iterator d _ hd hkind hclause hiterator =>
      refine .iterator (hmeets hd (.construct (.inr hkind)) (by rw [hkind]; rfl)) ?_ ?_ ?_
      · rw [h.kind_eq ((hd.inside hs howner).lt hs.toLinked), hkind]
      · rw [isClause, beq_iff_eq, parentKind?, Option.map_eq_some_iff] at hclause ⊢
        obtain ⟨p, hp, htail⟩ := hclause
        refine ⟨p, (h.link d p hp ?_).1, (h.kind_eq (hs.parent_lt hp)).trans htail⟩
        refine ⟨by simp [hkind], by simp [hkind], by simp [htail], by simp [htail], ?_⟩
        intro F _ _ hname
        rw [hkind] at hname
        cases hname
      · exact hchild (by rw [hkind]; rfl) hiterator (by simp [hkind]) (by simp [hkind]) (by simp)
  | @parameter params _ hkind hparams hmem =>
      refine .parameter ((h.kind_eq (hG.lt hs.toLinked)).trans hkind) (h.child? hs.toLinked
        (hG.lt hs.toLinked) (by rw [hkind]; rfl) hparams (hs.fast_params hkind hparams)) ?_
      exact (h.ordered.linked params root).mpr (hstays params hkind hparams hmem)

/-- What a thinner store meets has been met before. -/
theorem meets_back (ho : s.Ordered) (hG : s.Owner G) (hd : s'.Meets G d) (hlt : d < s.size)
    (hlist : s.kind d ≠ .varList) (hplaced : (s.kind d).isPlaced = false) : s.Meets G d := by
  have howner := hG.ownsBody hs
  have hinside := hd.inside h.evolves.sound (h.ownsBody howner (hG.lt hs.toLinked))
  exact (h.inside_of ho.toForest howner (hG.lt hs.toLinked) hlt hlist hinside).meets hs howner hplaced

/-- Patterns that bind names have done so before. -/
theorem bindsPattern_back (ho : s.Ordered) (hG : s.Owner G) (hroot : s'.BindsPattern G root)
    (hpattern : (s'.kind root).inPattern) : s.BindsPattern G root := by
  have hlt := h.lt_of_inPattern hpattern
  have hold : ∀ {d kind}, s'.kind d = kind → kind ≠ .semicolon → kind ≠ .script →
      d < s.size ∧ s.kind d = kind := by
    intro d kind hkind hsemicolon hscript
    have hd := h.not_new (by rwa [hkind]) (by rwa [hkind])
    exact ⟨hd, (h.kind_eq hd).symm.trans hkind⟩
  cases hroot with
  | names hd hkind hnames =>
      obtain ⟨hdlt, hkind'⟩ := hold hkind (by simp) (by simp)
      refine .names (h.meets_back hs ho hG hd hdlt ?_ (by rw [hkind']; rfl)) hkind' ?_
      · simp [hkind']
      · exact h.child?_of hs hdlt (by rw [hkind']; rfl) hlt hnames
  | exception hd hkind hexception =>
      obtain ⟨hdlt, hkind'⟩ := hold hkind (by simp) (by simp)
      refine .exception (h.meets_back hs ho hG hd hdlt ?_ (by rw [hkind']; rfl)) hkind' ?_
      · simp [hkind']
      · exact h.child?_of hs hdlt (by rw [hkind']; rfl) hlt hexception
  | @iterator d _ hd hkind hclause hiterator =>
      obtain ⟨hdlt, hkind'⟩ := hold hkind (by simp) (by simp)
      refine .iterator (h.meets_back hs ho hG hd hdlt ?_ (by rw [hkind']; rfl)) hkind' ?_ ?_
      · simp [hkind']
      · rw [isClause, beq_iff_eq, parentKind?, Option.map_eq_some_iff] at hclause ⊢
        obtain ⟨p, hp, htail⟩ := hclause
        obtain ⟨hplt, htail'⟩ := hold htail (by simp) (by simp)
        exact ⟨p, (h.back d p hdlt hplt hp).1, htail'⟩
      · exact h.child?_of hs hdlt (by rw [hkind']; rfl) hlt hiterator
  | @parameter params _ hkind hparams hmem =>
      obtain ⟨hGlt, hkind'⟩ := hold hkind (by simp) (by simp)
      have hlist := h.evolves.sound.kind_params hkind hparams
      obtain ⟨hplt, -⟩ := hold hlist (by simp) (by simp)
      refine .parameter hkind' (h.child?_of hs hGlt (by rw [hkind']; rfl) hplt hparams) ?_
      exact (hs.linked params root).mpr (h.back root params hlt hplt (h.ordered.parent?_of_mem hmem)).1

/-! ### Local names -/

/-- A name in a pattern stays local if it is not lost as a parameter. -/
theorem declares_pattern (hG : s.Owner G) (hroot : s.BindsPattern G root)
    (hpart : s.PatternPart root d) (hkind : s.kind d = .identifier)
    (hstays : ∀ params, s.kind G = .function → s.child? G .params = some params →
      d ∈ s.children params → s'.parent? d = some params) : s'.Declares G d := by
  have hd : (s.kind d).inPattern := by rw [hkind]; rfl
  have hpattern := hpart.inPattern_root hd
  refine .pattern (h.bindsPattern_of hs hG hroot hpattern fun params hG' hchild hmem => ?_)
    (hpart.congr hs (fun y hy => h.same_of_inPattern hs hy) hd)
    ((h.same_of_inPattern hs hd).1.trans hkind)
  by_cases hname : s.kind root = .identifier
  · obtain rfl := hpart.eq_of_identifier hname
    exact hstays params hG' hchild hmem
  · -- Only names are taken out of the list of parameters.
    have hlist := hs.kind_params hG' hchild
    refine (h.link root params (hs.parent?_of_mem hmem) ?_).1
    exact hs.fast_of_inPattern hpattern (by simp [hlist]) (by simp [hlist]) fun _ => hname

/-- A name that is not idle stays local. -/
theorem declares_of (hG : s.Owner G) (hd : s.Declares G d) (hidle : ¬ s.Idle G (s.text d)) :
    s'.Declares G d ∧ s'.text d = s.text d := by
  have howner := hG.ownsBody hs
  have hGlt := hG.lt hs.toLinked
  have hs' := h.evolves.sound
  have hmeets : s.Meets G d → s.kind d = .declaration ∨
      s.kind d = .function ∧ Tree.isDeclaredFunction (s.head d) → s'.Meets G d ∧ d < s.size := by
    intro hd hdeclares
    have hinside := hd.inside hs howner
    have hlt := hinside.lt hs.toLinked
    refine ⟨?_, hlt⟩
    refine (h.lasting G d howner hinside (.needed hG hinside hdeclares hidle)).meets hs'
      (h.ownsBody howner hGlt) ?_
    rw [h.kind_eq hlt]
    rcases hdeclares with hkind | ⟨hkind, -⟩ <;> rw [hkind] <;> rfl
  cases hd with
  | declaration hd hkind hnamed =>
      obtain ⟨hd', hlt⟩ := hmeets hd (.inl hkind)
      have htext := h.text?_eq_of_kind hlt (by simp [hkind])
      exact ⟨.declaration hd' ((h.kind_eq hlt).trans hkind) (htext ▸ hnamed), text_eq_of_text? htext⟩
  | function hd hkind hdeclared hnamed =>
      obtain ⟨hd', hlt⟩ := hmeets hd (.inr ⟨hkind, hdeclared⟩)
      have htext := h.text?_eq_of_declared hlt hdeclared
      refine ⟨.function hd' ((h.kind_eq hlt).trans hkind) ?_ (htext ▸ hnamed), text_eq_of_text? htext⟩
      rwa [h.isDeclaredFunction_eq hlt]
  | own hnames hnamed =>
      have htext := h.text?_eq hGlt fun hnot => hidle hnot.2
      exact ⟨.own ((h.namesItself_iff hGlt).mpr hnames) (htext ▸ hnamed), text_eq_of_text? htext⟩
  | pattern hroot hpart hkind =>
      have hlt : d < s.size := lt_of_kind (by simp [hkind])
      refine ⟨h.declares_pattern hs hG hroot hpart hkind fun params hG' hchild hmem => ?_,
        text_eq_of_text? (h.text?_eq_of_kind hlt (by simp [hkind]))⟩
      have hlist := hs.kind_params hG' hchild
      refine (h.link d params (hs.parent?_of_mem hmem) ?_).1
      refine ⟨by simp [hkind], by simp [hkind], by simp [hlist], by simp [hlist], ?_⟩
      intro F _ hF _
      have hparent := hs.parent?_of_mem (mem_of_child? hF)
      rw [hs.parent?_of_mem (mem_of_child? hchild), Option.some_inj] at hparent
      exact hparent ▸ hidle

/-- A name in a pattern that is still there stays local. -/
theorem declares_of_inside (hG : s.Owner G) (hd : s.Declares G d) (hkind : s.kind d = .identifier)
    (hinside : s'.Inside G d) : s'.Declares G d := by
  cases hd with
  | declaration _ hbad => rw [hkind] at hbad; cases hbad
  | function _ hbad => rw [hkind] at hbad; cases hbad
  | own hnames => rw [hnames.1] at hkind; cases hkind
  | pattern hroot hpart =>
      refine h.declares_pattern hs hG hroot hpart hkind fun params hG' hchild hmem => ?_
      have hlt := hs.child_lt hmem
      have hlink := hs.parent?_of_mem hmem
      obtain ⟨q, hq, -⟩ := hinside.parent h.ordered.toLinked
      by_cases hqlt : q < s.size
      · rw [hq, ← (h.back d q hlt hqlt hq).1, hlink]
      · -- A parameter is nothing that a declaration starts with.
        obtain ⟨-, hparent⟩ := h.origin d q hlt (Nat.le_of_not_lt hqlt) hq
        rw [parentKind?_of_parent hlink, hs.kind_params hG' hchild] at hparent
        cases hparent

/-- Nothing has become local. -/
theorem declares_back (ho : s.Ordered) (hG : s.Owner G) (hd : s'.Declares G d) :
    s.Declares G d ∧ s'.text d = s.text d := by
  have hGlt := hG.lt hs.toLinked
  have hold : ∀ {kind}, s'.kind d = kind → kind ≠ .semicolon → kind ≠ .script →
      d < s.size ∧ s.kind d = kind := by
    intro kind hkind hsemicolon hscript
    have hd := h.not_new (by rwa [hkind]) (by rwa [hkind])
    exact ⟨hd, (h.kind_eq hd).symm.trans hkind⟩
  cases hd with
  | declaration hd hkind hnamed =>
      obtain ⟨hlt, hkind'⟩ := hold hkind (by simp) (by simp)
      have htext := h.text?_eq_of_kind hlt (by simp [hkind'])
      refine ⟨.declaration (h.meets_back hs ho hG hd hlt ?_ (by rw [hkind']; rfl)) hkind'
        (htext ▸ hnamed), text_eq_of_text? htext⟩
      simp [hkind']
  | function hd hkind hdeclared hnamed =>
      obtain ⟨hlt, hkind'⟩ := hold hkind (by simp) (by simp)
      rw [h.isDeclaredFunction_eq hlt] at hdeclared
      have htext := h.text?_eq_of_declared hlt hdeclared
      refine ⟨.function (h.meets_back hs ho hG hd hlt ?_ (by rw [hkind']; rfl)) hkind' hdeclared
        (htext ▸ hnamed), text_eq_of_text? htext⟩
      simp [hkind']
  | own hnames hnamed =>
      have htext : s'.text? G = s.text? G := by
        rcases h.head G hGlt with hbare | ⟨-, -, hbare⟩
        · exact Head.text?_of_bare hbare
        · have hnone : s'.text? G = none := by
            rw [text?, ← show (s'.head G).bare.text? = (s'.head G).text? from rfl, hbare]
            rfl
          rw [hnone] at hnamed
          cases hnamed
      exact ⟨.own ((h.namesItself_iff hGlt).mp hnames) (htext ▸ hnamed), text_eq_of_text? htext⟩
  | pattern hroot hpart hkind =>
      have hd : (s'.kind d).inPattern := by rw [hkind]; rfl
      obtain ⟨hlt, hkind'⟩ := hold hkind (by simp) (by simp)
      refine ⟨.pattern (h.bindsPattern_back hs ho hG hroot (hpart.inPattern_root hd))
        (hpart.congr h.evolves.sound (fun y hy => h.same_back_of_inPattern hs hy) hd) hkind', ?_⟩
      exact text_eq_of_text? (h.text?_eq_of_kind hlt (by simp [hkind']))

variable (ho : s.Ordered)

include ho

theorem isLocal_of (hG : s.Owner G) (hidle : ¬ s.Idle G name)
    (hlocal : (s.view G).scope.isLocal name) : (s'.view G).scope.isLocal name := by
  have howner := hG.ownsBody hs
  obtain ⟨d, hd, rfl⟩ := (isLocal_scope ho.toForest hs howner).mp hlocal
  exact (isLocal_scope h.ordered.toForest h.evolves.sound
    (h.ownsBody howner (hG.lt hs.toLinked))).mpr ⟨d, h.declares_of hs hG hd hidle⟩

theorem isLocal_back (hG : s.Owner G) (hlocal : (s'.view G).scope.isLocal name) :
    (s.view G).scope.isLocal name := by
  have howner := hG.ownsBody hs
  obtain ⟨d, hd, rfl⟩ := (isLocal_scope h.ordered.toForest h.evolves.sound
    (h.ownsBody howner (hG.lt hs.toLinked))).mp hlocal
  obtain ⟨hd', htext⟩ := h.declares_back hs ho hG hd
  exact (isLocal_scope ho.toForest hs howner).mpr ⟨d, hd', htext.symm⟩

end Thins

end Store

end ScriptMin
