import ScriptMin.Proofs.Grammar.Formed
import ScriptMin.Proofs.Pass.DeclarationSoundness
import ScriptMin.Proofs.Pass.Forests
import ScriptMin.Proofs.Pass.Reductions

/-!
Scripts stay sound. The parser gives a formed script, and every pass leaves a sound store behind,
whether it comes to its end or stops with an error. Main statement: whatever passes have run, the
nodes of the store have children of the kinds and in the roles that their own kinds allow.
-/

namespace ScriptMin

open Store Pass

variable {s s' : Store} {id : NodeId}

/-! ### Substitution -/

namespace Substitution

variable {write : Data.Writer} {call : NodeId} {p : Permutation} {args : List NodeId}

/-- The value of a property is not its key. -/
theorem portable_of_value (h : s.Sound) {property value : NodeId}
    (hkind : s.kind property = .propertyInit) (hvalue : s.nth? property 1 = some value) :
    s.Portable value where
  lt := h.child_lt (mem_of_nth? hvalue)
  ne_root := h.ne_root (h.parent?_of_mem (mem_of_nth? hvalue))
  not_key := by
    rintro ⟨other, -, hfirst⟩
    have hlink := h.parent?_of_mem (mem_of_nth? hvalue)
    rw [h.parent?_of_mem (List.mem_of_getElem? hfirst), Option.some_inj] at hlink
    subst hlink
    obtain ⟨hlt, -⟩ := List.getElem?_eq_some_iff.mp hfirst
    have hsame := (List.getElem?_inj hlt (h.nodup other)).mp (hfirst.trans hvalue.symm)
    cases hsame

/-- Nothing takes the place of a question without an answer. -/
theorem sound_unanswered (h : s.Sound) :
    Gives Store.Sound (pure none) s fun result s' =>
      s.Evolves s' ∧ ∀ new ∈ result, s'.Portable new :=
  gives_pure h ⟨.refl h, fun new hnew => absurd hnew (Option.not_mem_none new)⟩

theorem sound_answer (h : s.Sound) (query : Query) (value : Data) :
    Gives Store.Sound (answer write call query args value) s fun result s' =>
      s.Evolves s' ∧ ∀ new ∈ result, s'.Portable new := by
  rw [answer, gives_get_bind]
  cases query with
  | value =>
      dsimp only
      split
      · exact gives_throw h _
      case h_2 tree hparse =>
          rcases hgraft : s.graft tree with ⟨new, s₁⟩
          obtain ⟨hs, hnew, -⟩ := evolves_graft h (formed_of_parseExpression hparse) hgraft
          rw [gives_set_bind]
          refine gives_pure hs.sound ⟨hs, ?_⟩
          rintro _ ⟨⟩
          exact hnew
  | isSet =>
      dsimp only
      split
      · exact sound_unanswered h
      case h_2 expected _ =>
          rcases hadd : s.add
            { kind := if agrees value expected then .trueLit else .falseLit, span := s.span call }
            with ⟨new, s₁⟩
          obtain ⟨hs, hnew, -⟩ := evolves_of_add h
            (Head.complete_of_kind (by dsimp only; split <;> decide)
              (by dsimp only; split <;> decide) rfl rfl) hadd
          rw [gives_set_bind]
          refine gives_pure hs.sound ⟨hs, ?_⟩
          rintro _ ⟨⟩
          exact hnew
  | select =>
      dsimp only
      split
      · exact sound_unanswered h
      case h_2 map hmap =>
          refine gives_ite (fun _ => sound_unanswered h) fun _ => ?_
          split
          case h_1 branch hbranch =>
              obtain ⟨name, hmem⟩ := mem_of_branch? hbranch
              obtain ⟨property, hproperty, hsome⟩ := List.mem_filterMap.mp hmem
              obtain ⟨_, hguard, hsome⟩ := Option.bind_eq_some_iff.mp hsome
              obtain ⟨key, -, hsome⟩ := Option.bind_eq_some_iff.mp hsome
              obtain ⟨new, hnew, heq⟩ := Option.bind_eq_some_iff.mp hsome
              obtain ⟨-, rfl⟩ : keyText s key = name ∧ new = branch := by simpa [pure] using heq
              have hinit := eq_of_beq ((Option.guard_eq_some' _).mp hguard)
              have hportable := portable_of_value h hinit hnew
              have hs := evolves_remove h hportable.not_key
              rw [gives_set_bind]
              refine gives_pure hs.sound ⟨hs, ?_⟩
              rw [hbranch]
              rintro _ ⟨⟩
              exact hportable.of_evolves hs
          case h_2 hnone =>
              rw [hnone]
              exact sound_unanswered h

/-- A question that is replaced is a call. -/
theorem sound_replacement? (h : s.Sound) :
    Gives Store.Sound (replacement? write p call) s fun result s' =>
      ∀ new ∈ result, (s'.replace call new).Sound := by
  rw [replacement?, gives_get_bind]
  split
  · exact gives_pure h fun new hnew => absurd hnew (Option.not_mem_none new)
  case h_2 query args value hquery =>
      obtain ⟨_, hguard, -⟩ := Option.bind_eq_some_iff.mp hquery
      have hkind : s.kind call = .call := eq_of_beq ((Option.guard_eq_some' _).mp hguard)
      refine (sound_answer h query value).mono fun result s' hs new hnew => ?_
      have hcall : s'.kind call = .call := by
        rw [hs.1.kind_eq call (lt_of_kind (by simp [hkind])), hkind]
      exact (evolves_replace_of_kind hs.1.sound (by rw [hcall]; rfl) (by simp [hcall])
        (by simp [hcall]) (hs.2 new hnew)).sound

end Substitution

theorem sound_substituteBy (h : s.Sound) (write : Data.Writer) (p : Permutation) :
    Gives Store.Sound (substituteBy write p) s fun _ _ => True := by
  refine gives_ite (fun _ => gives_pure h trivial) fun _ => ?_
  rw [gives_get_bind]
  exact Substitution.gives_visit (fun _ _ hs => Substitution.sound_replacement? hs) h _

/-! ### Replacement of names -/

/-- Whether the name that nodes of the kind carry is one of a variable or member. -/
def Kind.isNamed : Kind → Bool
  | .identifier | .declaration | .function => true
  | _ => false

/-- A node carries the name of a variable or member. -/
structure Store.CarriesName (s : Store) (id : NodeId) : Prop where
  kind : (s.kind id).isNamed
  text : (s.text? id).isSome

theorem Locals.carriesName_of_mem_renameAt {replacements : Locals.Replacements}
    {item : NodeId × String} (hkind : (s.kind id).isNamed)
    (h : item ∈ Locals.renameAt s replacements id) : s.CarriesName item.1 := by
  rw [Locals.renameAt] at h
  split at h
  · cases h
  case h_2 htext =>
      split at h
      · cases h
      · split at h
        · cases h
        · rw [List.mem_singleton.mp h]
          exact ⟨hkind, by rw [htext]; rfl⟩

/-- What gets another name has one. -/
theorem Locals.carriesName_of_mem_renamings {depth : Nat} {outer : Locals.Replacements}
    {item : NodeId × String} (h : item ∈ Locals.renamings s depth outer id) :
    s.CarriesName item.1 := by
  induction depth generalizing outer id with
  | zero => cases h
  | succ depth ih =>
      have hbelow : ∀ {inner}, item ∈ (s.children id).flatMap (Locals.renamings s depth inner) →
          s.CarriesName item.1 := by
        intro inner hitem
        obtain ⟨c, -, hc⟩ := List.mem_flatMap.mp hitem
        exact ih hc
      rw [Locals.renamings] at h
      split at h
      case h_1 hkind =>
          rcases List.mem_append.mp h with hown | hchild
          · split at hown
            · cases hown
            · exact Locals.carriesName_of_mem_renameAt (by rw [hkind]; rfl) hown
          · exact hbelow hchild
      case h_2 hkind =>
          split at h
          · cases h
          · exact Locals.carriesName_of_mem_renameAt (by rw [hkind]; rfl) h
      case h_3 hkind =>
          rcases List.mem_append.mp h with hown | hchild
          · exact Locals.carriesName_of_mem_renameAt (by rw [hkind]; rfl) hown
          · exact hbelow hchild
      case h_4 => exact hbelow h

/-- Members with private names have names. -/
theorem Privates.carriesName_of_mem_members {item : NodeId × String}
    (h : item ∈ Privates.members s) : s.CarriesName item.1 := by
  obtain ⟨x, -, hsome⟩ := List.mem_filterMap.mp h
  obtain ⟨name, hname, rfl⟩ := Option.map_eq_some_iff.mp hsome
  rw [Privates.privateName?] at hname
  split at hname
  case h_4 => cases hname
  all_goals
    obtain ⟨htext, -⟩ := Option.filter_eq_some_iff.mp hname
    exact ⟨by rw [‹s.kind x = _›]; rfl, by rw [htext]; rfl⟩

theorem sound_foldl_setText {items : List (NodeId × String)} (h : s.Sound)
    (hitems : ∀ item ∈ items, s.CarriesName item.1) (text : NodeId × String → String) :
    (items.foldl (fun s item => s.setText item.1 (text item)) s).Sound := by
  refine (List.foldlRecOn (motive := fun s' : Store => s'.Sound ∧ ∀ x, (s.text? x).isSome →
    (s'.text? x).isSome) items _ ⟨h, fun _ hx => hx⟩ fun s' hs item hitem => ⟨?_, fun x hx => ?_⟩).1
  · exact (evolves_setText hs.1 (hs.2 _ (hitems item hitem).text) _).sound
  · rw [setText, setPayload, text?, head_modifyHead]
    split
    · rfl
    · exact hs.2 x hx

theorem sound_renameLocals (h : s.Sound) : Gives Store.Sound renameLocals s fun _ _ => True := by
  have hscan : s.scanTree.Sound := (evolves_scanTree h).sound
  rw [renameLocals, gives_modify_bind, gives_get_bind]
  split
  · exact gives_refuse hscan _
  · dsimp only
    rw [gives_set_bind]
    refine gives_pure (sound_foldl_setText hscan (fun _ hitem => ?_) Prod.snd) trivial
    exact Locals.carriesName_of_mem_renamings hitem

theorem sound_replacePrivates (h : s.Sound) (context : String) :
    Gives Store.Sound (replacePrivates context) s fun _ _ => True := by
  rw [replacePrivates, replacePrivatesBy, gives_get_bind]
  dsimp only
  split
  · exact gives_refuse h _
  · refine (gives_foldlM h fun found member s' hs => ?_).bind fun replacements s' _ _ => ?_
    · exact Privates.gives_addReplacement hs found member
    · rw [gives_set_bind]
      exact gives_pure (sound_foldl_setText h (fun _ => Privates.carriesName_of_mem_members)
        fun item => (replacements.lookup item.2).getD item.2) trivial

/-! ### Sequences of passes -/

namespace Transform

theorem sound_run (h : s.Sound) (transform : Transform) : (transform.run s).Sound := by
  have hkeeps : ∀ {m : Edit Bool}, Edit.Keeps m s → m.Gives s fun _ s' => s'.Sound :=
    fun hm => Edit.Gives.mono hm fun _ _ hs => hs.sound
  have hgives : Gives Store.Sound transform.pass s fun _ _ => True := by
    cases transform with
    | substitution p => exact sound_substituteBy h _ p
    | branches => exact gives_lift (hkeeps (keeps_removeDeadBranches h))
    | unused =>
        exact Unused.gives_settle (I := Store.Sound) (fun s hs => Edit.Gives.mono
          (Unused.keeps_round hs) fun _ _ hs' => hs'.sound) h false _
    | declarations => exact gives_lift (hkeeps (keeps_combineDeclarations h))
    | blocks => exact gives_lift (hkeeps (keeps_reduceBlocks h))
    | locals => exact sound_renameLocals h
    | privates context => exact sound_replacePrivates h context
  exact hgives.1

/-- Whatever passes run one after the other, they leave a sound store. -/
theorem sound_foldl_run (h : s.Sound) (transforms : List Transform) :
    (transforms.foldl run s).Sound :=
  List.foldlRecOn _ _ h fun _ hs transform _ => sound_run hs transform

end Transform

/-- Whatever passes have run on a script that is accepted, the store is sound. -/
theorem sound_of_parseScript {source : String} {line : Nat} {t : Tree}
    (h : parseScript source line = .ok t) (transforms : List Transform) :
    (transforms.foldl Transform.run (.ofTree t)).Sound :=
  have ⟨hformed, hkind⟩ := formed_of_parseScript h
  Transform.sound_foldl_run (sound_ofTree hformed hkind) transforms

end ScriptMin
