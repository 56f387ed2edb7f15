import ScriptMin.Proofs.Pass.LocalNames

/-!
Binders in stores that lose what is not needed. Main statements: every name that is left is bound
where it was bound, and a body that uses `eval` loses nothing.
-/

namespace ScriptMin

namespace Store

variable {s s' s'' : Store} {id root F G c d p x y : NodeId} {name : String}

/-! ### What a scan finds -/

namespace Scanned

variable (hscan : s.Scanned) (hG : s.Owner G) (hwithin : s.Within G s.root)

include hscan hG hwithin

/-- A name that a body uses is not idle there. -/
theorem not_idle_of_accesses (hs : s.Sound) (ho : s.Ordered)
    (haccess : (s.view G).scope.Accesses name) : ¬ s.Idle G name := by
  rintro ⟨scope, hscope, -, hunused⟩
  rw [hscan G hG hwithin, Option.some_inj] at hscope
  rw [← hscope] at hunused
  exact not_mem_unused_scope ho.toForest hs (hG.ownsBody hs) haccess hunused

/-- A body that uses `eval` has no idle names. -/
theorem not_idle_of_usesEval (heval : (s.view G).scope.usesEval) : ¬ s.Idle G name := by
  rintro ⟨scope, hscope, hnot, -⟩
  rw [hscan G hG hwithin, Option.some_inj] at hscope
  rw [hscope, hnot] at heval
  cases heval

end Scanned

/-! ### Owners from the outside in -/

namespace Thins

variable (h : Thins s s') (hs : s.Sound) (ho : s.Ordered)

include h hs ho

/-- A function that is left has been there before. What holds of the script, and of a function once
it holds of the body around it, holds of all functions that are left. -/
theorem owner_induction {motive : NodeId → Prop} (hroot : motive s.root)
    (hstep : ∀ G F, s.Owner G → s.Within G s.root → s.kind F = .function → s.Inside G F →
      s'.Inside G F → motive G → motive F) (hF : s.Owner F) (hwithin : s'.Within F s'.root) :
    s.Within F s.root ∧ motive F := by
  induction hn : s'.lineLength F using Nat.strongRecOn generalizing F with
  | _ n ih =>
      rcases hF with rfl | hkind
      · exact ⟨.refl, hroot⟩
      have hFlt : F < s.size := lt_of_kind (by simp [hkind])
      have hs' := h.evolves.sound
      obtain ⟨G, howner, hwithin', hinside⟩ := h.ordered.toForest.exists_inside hwithin
        (hs'.ne_root_of_kind (by simp [h.kind_eq hFlt, hkind]))
      have hG := h.owner_iff.mp howner
      have hinside₀ := h.inside_of ho.toForest (hG.ownsBody hs) (hG.lt hs.toLinked) hFlt
        (by simp [hkind]) hinside
      obtain ⟨hGwithin, hmotive⟩ :=
        ih _ (hn ▸ hinside.lineLength_lt h.ordered.toForest) hG hwithin' rfl
      exact ⟨(hinside₀.within hs.toLinked).trans hGwithin,
        hstep G F hG hGwithin hkind hinside₀ hinside hmotive⟩

/-! ### Binders -/

variable (hscan : s.Scanned)

include hscan

/-- A name that a body uses is bound where it was bound. -/
theorem binderAt?_eq (hF : s.Owner F) (hwithin : s'.Within F s'.root)
    (haccess : (s.view F).scope.Accesses name) : s'.binderAt? name F = s.binderAt? name F := by
  have hbound : ∀ {F}, s.Owner F → s.Within F s.root → (s.view F).scope.Accesses name →
      (s.view F).scope.isLocal name → s'.binderAt? name F = s.binderAt? name F := by
    intro F hF hwithin haccess hlocal
    have hidle := hscan.not_idle_of_accesses hF hwithin hs ho haccess
    have hlocal' := h.isLocal_of hs ho hF hidle hlocal
    rw [binderAt?_of_isLocal ho.toForest hF hlocal,
      binderAt?_of_isLocal h.ordered.toForest (h.owner_iff.mpr hF) hlocal']
  refine (h.owner_induction hs ho (motive := fun F =>
    (s.view F).scope.Accesses name → s'.binderAt? name F = s.binderAt? name F) ?_ ?_ hF hwithin).2 haccess
  · intro haccess
    by_cases hlocal : (s.view s.root).scope.isLocal name
    · exact hbound (.inl rfl) .refl haccess hlocal
    · have hlocal' : ¬ (s'.view s'.root).scope.isLocal name := fun hlocal' =>
        hlocal (h.isLocal_back hs ho (.inl rfl) (h.evolves.root_eq ▸ hlocal'))
      rw [binderAt?_root hs.toLinked hlocal, ← h.evolves.root_eq,
        binderAt?_root h.ordered.toLinked hlocal']
  · intro G F hG hGwithin hkind hinside hinside' ih haccess
    by_cases hlocal : (s.view F).scope.isLocal name
    · exact hbound (.inr hkind) ((hinside.within hs.toLinked).trans hGwithin) haccess hlocal
    have hlocal' : ¬ (s'.view F).scope.isLocal name := fun hlocal' =>
      hlocal (h.isLocal_back hs ho (.inr hkind) hlocal')
    rw [binderAt?_of_inside ho.toForest hinside fun hand => hlocal hand.2,
      binderAt?_of_inside h.ordered.toForest hinside' fun hand => hlocal' hand.2]
    refine ih (accesses_nested ho.toForest hs (hG.ownsBody hs)
      (hinside.meets hs (hG.ownsBody hs) (by rw [hkind]; rfl)) hkind ?_)
    exact shares_of_accesses ho.toForest hs (.inl hkind) haccess hlocal

omit ho hscan in
/-- The name of a property stays one. -/
theorem isPropertyName_of (hproperty : Locals.isPropertyName s x) : Locals.isPropertyName s' x := by
  have hsame : ∀ p, s.parent? x = some p → s.kind p = .dot ∨ s.kind p = .propertyInit →
      s'.parentKind? x = s.parentKind? x ∧ s'.indexOf? x = s.indexOf? x := by
    intro p hp hkind
    have hplt := hs.parent_lt hp
    have hframe : ¬ s.InFrame p := by
      rintro ⟨F, hF, hfunction⟩
      rcases hs.hosts_function hfunction ((hs.linked F p).mpr hF) with ⟨-, hbad⟩ | ⟨-, hbad⟩ <;>
        simp [hbad] at hkind
    have hrow := h.row p hplt (by rcases hkind with hkind | hkind <;> rw [hkind] <;> rfl) hframe
    have hp' : s'.parent? x = some p :=
      h.ordered.parent?_of_mem (hrow ▸ (hs.linked p x).mpr hp)
    refine ⟨?_, by simp only [indexOf?, hp, hp', Option.bind_eq_bind, Option.bind_some, hrow]⟩
    rw [parentKind?_of_parent hp, parentKind?_of_parent hp', h.kind_eq hplt]
  rw [Locals.isPropertyName] at hproperty ⊢
  split at hproperty
  case h_1 hparent =>
      obtain ⟨p, hp, hkind⟩ := Option.map_eq_some_iff.mp hparent
      obtain ⟨hparent', hindex⟩ := hsame p hp (.inl hkind)
      rwa [hparent', hparent, hindex]
  case h_2 hparent =>
      obtain ⟨p, hp, hkind⟩ := Option.map_eq_some_iff.mp hparent
      obtain ⟨hparent', hindex⟩ := hsame p hp (.inr hkind)
      rwa [hparent', hparent, hindex]
  case h_3 => cases hproperty

/-- A name that is left is bound where it was bound. -/
theorem binder?_eq (hwithin : s'.Within x s'.root) (hkind : s'.kind x = .identifier)
    (hproperty : Locals.isPropertyName s' x = false) :
    s.Within x s.root ∧ Locals.isPropertyName s x = false ∧ s'.text x = s.text x ∧
      s'.binder? x = s.binder? x := by
  have hs' := h.evolves.sound
  have hlt : x < s.size := h.not_new (by simp [hkind]) (by simp [hkind])
  have hkind₀ : s.kind x = .identifier := (h.kind_eq hlt).symm.trans hkind
  obtain ⟨G, howner, hGwithin, hinside⟩ := h.ordered.toForest.exists_inside hwithin
    (hs'.ne_root_of_kind (by simp [hkind]))
  have hG := h.owner_iff.mp howner
  have hbody := hG.ownsBody hs
  have hinside₀ := h.inside_of ho.toForest hbody (hG.lt hs.toLinked) hlt (by simp [hkind₀]) hinside
  obtain ⟨hwithin₀, -⟩ := h.owner_induction hs ho (motive := fun _ => True) trivial
    (fun _ _ _ _ _ _ _ _ => trivial) hG hGwithin
  have hproperty₀ : Locals.isPropertyName s x = false := by
    by_contra hcase
    rw [h.isPropertyName_of hs (by simpa using hcase)] at hproperty
    cases hproperty
  have htext := text_eq_of_text? (h.text?_eq_of_kind hlt (by simp [hkind₀]))
  refine ⟨(hinside₀.within hs.toLinked).trans hwithin₀, hproperty₀, htext, ?_⟩
  have hnot := not_owner_of_inside hs.toLinked hinside₀ (by simp [hkind₀])
  have hnot' := not_owner_of_inside h.ordered.toLinked hinside (by simp [hkind])
  rw [binder?, binder?, htext, binderAt?_of_inside ho.toForest hinside₀ fun hand => hnot hand.1,
    binderAt?_of_inside h.ordered.toForest hinside fun hand => hnot' hand.1]
  rcases hinside₀.name_cases hs hbody hkind₀ hproperty₀ with hmeets | hdeclares
  · exact h.binderAt?_eq hs ho hscan hG hGwithin
      (accesses_name ho.toForest hs hbody hmeets hkind₀)
  · have hlocal := (isLocal_scope ho.toForest hs hbody).mpr ⟨x, hdeclares, rfl⟩
    have hlocal' := (isLocal_scope h.ordered.toForest hs' (h.ownsBody hbody (hG.lt hs.toLinked))).mpr
      ⟨x, h.declares_of_inside hs hG hdeclares hkind₀ hinside, htext⟩
    rw [binderAt?_of_isLocal ho.toForest hG hlocal,
      binderAt?_of_isLocal h.ordered.toForest howner hlocal']

/-! ### Bodies that use `eval` -/

/-- A body that uses `eval` is left, and all that is in it. -/
theorem eval_stays (hG : s.Owner G) (hwithin : s.Within G s.root)
    (heval : (s.view G).scope.usesEval) :
    s'.Within G s'.root ∧ ∀ y, y = G ∨ s.Inside G y → s'.children y = s.children y := by
  have hcalm : ∀ {G}, s.Owner G → s.Within G s.root → (s.view G).scope.usesEval →
      ∀ name, ¬ s.Idle G name := fun hG hwithin heval _ =>
    hscan.not_idle_of_usesEval hG hwithin heval
  refine ⟨?_, h.calm G hG (hcalm hG hwithin heval)⟩
  -- A body uses `eval` if a function in it does.
  refine ((Thins.refl hs ho).owner_induction hs ho (motive := fun F =>
    (s.view F).scope.usesEval → s'.Within F s'.root) ?_ ?_ hG hwithin).2 heval
  · intro _
    rw [h.evolves.root_eq]
    exact .refl
  · intro H F hH hHwithin hkind hinside _ ih heval
    have heval' : (s.view H).scope.usesEval := by
      refine (usesEval_scope ho.toForest hs (hH.ownsBody hs)).mpr ⟨F, ?_, .inr ⟨hkind, heval⟩⟩
      exact hinside.meets hs (hH.ownsBody hs) (by rw [hkind]; rfl)
    have hinside' := h.inside_of_calm (hcalm hH hHwithin heval') hH hs.toLinked hinside
    exact (hinside'.within h.ordered.toLinked).trans (ih heval')

/-- A body that uses `eval` goes on using it. -/
theorem usesEval_of (hG : s.Owner G) (hwithin : s.Within G s.root)
    (heval : (s.view G).scope.usesEval) : (s'.view G).scope.usesEval := by
  have hs' := h.evolves.sound
  induction hn : s.size - s.lineLength G using Nat.strongRecOn generalizing G with
  | _ n ih =>
      have hbody := hG.ownsBody hs
      have hbody' := h.ownsBody hbody (hG.lt hs.toLinked)
      have hcalm : ∀ name, ¬ s.Idle G name := fun _ =>
        hscan.not_idle_of_usesEval hG hwithin heval
      have hrow := h.calm G hG hcalm
      obtain ⟨d, hd, hcase⟩ := (usesEval_scope ho.toForest hs hbody).mp heval
      have hinside := hd.inside hs hbody
      have hlt := hinside.lt hs.toLinked
      have hplace : ∀ y, y = G ∨ s.Inside G y → y < s.size := by
        rintro y (rfl | hy)
        · exact hG.lt hs.toLinked
        · exact hy.lt hs.toLinked
      refine (usesEval_scope h.ordered.toForest hs' hbody').mpr ⟨d, ?_, ?_⟩
      · refine hd.congr hs hbody (fun y hy => h.kind_eq (hplace y hy)) hrow fun y hy => ?_
        obtain ⟨p, hp, hcase⟩ := hy.parent hs.toLinked
        have hmem := (hs.linked p y).mpr hp
        rw [← hrow p (hcase.imp id And.right)] at hmem
        exact (h.back y p (hy.lt hs.toLinked) (hs.parent_lt hp) (h.ordered.parent?_of_mem hmem)).2
      · rcases hcase with ⟨hkind, htext⟩ | ⟨hkind, heval⟩
        · refine .inl ⟨(h.kind_eq hlt).trans hkind, ?_⟩
          rw [text_eq_of_text? (h.text?_eq_of_kind hlt (by simp [hkind])), htext]
        · refine .inr ⟨(h.kind_eq hlt).trans hkind, ih _ ?_ (.inr hkind) ?_ heval rfl⟩
          · have hshort := hinside.lineLength_lt ho.toForest
            have hle : s.lineLength d ≤ s.size := lineLength_le_size
            omega
          · exact (hinside.within hs.toLinked).trans hwithin

/-! ### Patterns and effects -/

omit ho hscan in
/-- A pattern binds the same names. -/
theorem boundNames_eq (ho' : s.Forest) (hpattern : s.IsPattern root) :
    (s'.view root).boundNames = (s.view root).boundNames := by
  have hsame : ∀ {y}, (s.kind y).inPattern → s'.kind y = s.kind y ∧ s'.children y = s.children y :=
    fun hy => h.same_of_inPattern hs hy
  induction hpattern with
  | @leaf id hleaf =>
      have hin : (s.kind id).inPattern := by rcases hleaf with hleaf | hleaf <;> rw [hleaf] <;> rfl
      rw [boundNames_view ho', boundNames_view h.ordered.toForest, (hsame hin).1]
      rcases hleaf with hleaf | hleaf
      · have hlt : id < s.size := lt_of_kind (by simp [hleaf])
        simp only [hleaf, text_eq_of_text? (h.text?_eq_of_kind hlt (by simp [hleaf]))]
      · simp only [hleaf]
  | @array id hkind _ ih =>
      obtain ⟨hkind', hrow⟩ := hsame (y := id) (by rw [hkind]; rfl)
      rw [boundNames_view ho', boundNames_view h.ordered.toForest, hkind', hkind, hrow]
      simp only [Tree.boundNamesList_eq, List.flatMap_map]
      exact List.flatMap_congr ih
  | @object id hkind hfields hvalues ih =>
      obtain ⟨hkind', hrow⟩ := hsame (y := id) (by rw [hkind]; rfl)
      rw [boundNames_view ho', boundNames_view h.ordered.toForest, hkind', hkind, hrow]
      simp only [Tree.boundNamesOfFields_eq, List.flatMap_map, h.ordered.toForest.nth?_view,
        ho'.nth?_view]
      refine List.flatMap_congr fun c hc => ?_
      obtain ⟨-, hrow'⟩ := hsame (y := c) (by rw [hfields c hc]; rfl)
      rw [nth?, nth?, hrow']
      cases hvalue : (s.children c)[1]? with
      | none => rfl
      | some value => exact ih c hc value hvalue

end Thins

end Store

end ScriptMin
