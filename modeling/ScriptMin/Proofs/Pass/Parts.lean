import ScriptMin.Proofs.Pass.Jumps
import ScriptMin.Proofs.Pass.Rounds
import ScriptMin.Proofs.Pass.Uniting

/-!
Conditional expressions keep their parts, and declarations their names. The parser makes them with
these, and no pass takes a part away from a conditional expression that has a place, or its name from
a declaration. Main statement: whatever passes have run on a script that is accepted, every
conditional expression of the tree has all its parts, and every declaration in a list has a name.
-/

namespace ScriptMin

open Store Pass

variable {s s' : Store} {id c d : NodeId}

/-! ### Edits -/

theorem supplied_removeDeadBranches (h : s.Supplied) :
    Edit.Gives removeDeadBranches s fun _ s' => s'.Supplied := by
  rw [removeDeadBranches, Edit.gives_bind, Edit.gives_get]
  exact Edit.gives_sweep (I := fun _ s' => s'.Supplied) h fun _ _ _ hs =>
    Branches.supplied_decideNode hs

theorem supplied_reduceBlocks (h : s.Supplied) :
    Edit.Gives reduceBlocks s fun _ s' => s'.Supplied := by
  rw [reduceBlocks, Edit.gives_bind, Edit.gives_get]
  refine (Edit.gives_sweep (I := fun rest s' => (∀ x ∈ rest, x < s'.size) ∧ s'.Supplied)
    ⟨fun x hx => ?_, h⟩ ?_).mono fun _ _ hs => hs.2
  · exact h.ordered.toForest.lt_of_reached (h.ordered.toForest.mem_postorder.mp hx)
  · rintro item rest s' ⟨hlt, hs⟩
    rw [List.forall_mem_cons] at hlt
    refine (Blocks.supplied_reduceNode hs hlt.1).mono ?_
    rintro _ s'' ⟨hs', hle⟩
    exact ⟨fun x hx => (hlt.2 x hx).trans_le hle, hs'⟩

theorem supplied_combineDeclarations (h : s.Supplied) :
    Edit.Gives combineDeclarations s fun _ s' => s'.Supplied := by
  rw [combineDeclarations, Edit.gives_bind, Edit.gives_get]
  refine (Edit.gives_sweep (I := fun rest s' =>
    (∀ x ∈ rest, s'.kind x = .script ∧ x < s'.size) ∧ s'.Supplied)
    ⟨fun x hx => h.ordered.kind_body hx, h⟩ ?_).mono fun _ _ hs => hs.2
  rintro body rest s' ⟨hbodies, hs⟩
  rw [List.forall_mem_cons] at hbodies
  obtain ⟨⟨hkind, hlt⟩, hbodies⟩ := hbodies
  refine (Declarations.gives_visitBody hs hlt hkind).mono fun _ s'' hs' => ?_
  refine ⟨fun x hx => ⟨?_, hs'.unites.lt (hbodies x hx).2⟩, hs'.unites.supplied⟩
  rw [hs'.unites.kind_eq (hbodies x hx).2, (hbodies x hx).1]

/-! ### Removal of declarations -/

theorem Store.Ordered.not_inFrame (h : s.Ordered) (hkind : s.kind id = .conditional) :
    ¬ s.InFrame id := by
  rintro ⟨F, hF, hfunction⟩
  rcases (h.admits hF).function hfunction with hbad | hbad
  all_goals
    rw [show (s.head id).kind = .conditional from hkind] at hbad
    cases hbad

/-- The pattern of a declaration does not leave it. -/
theorem Store.Sound.fast_names (h : s.Sound) (hd : s.kind d = .declaration) (hc : c ∈ s.children d)
    (hrole : s.role? c = some .names) : s.Fast c d := by
  have hpattern : s.IsPattern c := by
    refine (h.formed d).patterns c hc ?_
    rw [Head.binds, show (s.head d).kind = .declaration from hd]
    exact beq_iff_eq.mpr hrole
  refine ⟨fun hkind => ?_, fun hkind => hpattern.kind_ne_function hkind.1, by simp [hd],
    by simp [hrole], fun G hG hchild => ?_⟩
  · have hin := hpattern.inPattern
    rw [hkind] at hin
    cases hin
  · rw [h.kind_params hG hchild] at hd
    cases hd

namespace Store.Thins

theorem lt_of_kind (h : Thins s s') (hid : id < s'.size) (hkind : s'.kind id ≠ .semicolon) :
    id < s.size :=
  Nat.lt_of_not_le fun hle => (h.added id hle).elim hkind (Nat.not_le_of_lt hid)

/-- What has a place had one before, unless it is new. -/
theorem exists_parent {x p : NodeId} (h : Thins s s') (hp : s'.parent? x = some p)
    (hx : x < s.size) : ∃ q, s.parent? x = some q := by
  by_cases hlt : p < s.size
  · exact ⟨p, (h.back x p hx hlt hp).1⟩
  · have horigin := (h.origin x p hx (Nat.le_of_not_lt hlt) hp).2
    rw [parentKind?] at horigin
    exact (Option.map_eq_some_iff.mp horigin).imp fun _ hq => hq.1

/-- Declarations keep their names. -/
theorem named (h : Thins s s') (hs : s.Sound) (hd : s.Named d) : s'.Named d := by
  have hlt : d < s.size := Store.lt_of_kind (by simp [hd.kind_eq])
  refine ⟨(h.kind_eq hlt).trans hd.kind_eq, hd.title.imp (fun htext => ?_) fun ⟨c, hc, hrole⟩ => ?_⟩
  · rcases h.head d hlt with hbare | ⟨hitself, -⟩
    · rwa [show s'.text? d = s.text? d from Head.text?_of_bare hbare]
    · exact absurd (hd.kind_eq.symm.trans hitself.1) (by simp)
  · rcases hs.hosts_declaration hd.kind_eq hc with ⟨hnames, -⟩ | hvalue
    · obtain ⟨hlink, hsame⟩ := h.link c d (hs.parent?_of_mem hc) (hs.fast_names hd.kind_eq hc hnames)
      exact ⟨c, (h.evolves.sound.linked d c).mpr hlink, by simp [hsame, hnames]⟩
    · exact absurd hvalue hrole

/-- What is lost when a store thins is nothing that is needed. -/
theorem ample (h : Thins s s') (hs : s.Supplied) : s'.Ample := by
  refine ⟨h.evolves.sound.toLinked, h.evolves.sound.root_kind,
    fun {x p} hp => ⟨fun hkind => ?_, fun hkind d hd => ?_⟩, fun {x p} hp hlist hne hrole => ?_⟩
  · have hx := h.lt_of_kind (parent?_lt hp) (by simp [hkind])
    rw [h.kind_eq hx] at hkind
    obtain ⟨q, hq⟩ := h.exists_parent hp hx
    rw [h.row x hx (by rw [hkind]; rfl) (hs.ordered.not_inFrame hkind)]
    exact (hs.ample.filled hq).parts hkind
  · have hx := h.lt_of_kind (parent?_lt hp) (by simp [hkind])
    have hlink := h.evolves.sound.parent?_of_mem hd
    have hkindd := (h.ordered.admits hlink).declaration hkind
    have hlt := h.lt_of_kind (parent?_lt hlink) (by rw [kind, hkindd]; simp)
    rw [h.kind_eq hx] at hkind
    obtain ⟨q, hq⟩ := h.exists_parent hp hx
    refine h.named hs.sound ((hs.ample.filled hq).named hkind d ?_)
    exact (hs.sound.linked x d).mpr (h.back d x hlt hx hlink).1
  · -- What is new is an expression statement, and other statements have stayed where they were.
    have hx := h.lt_of_kind (parent?_lt hp) hne
    have hlt := h.lt_of_kind (h.evolves.sound.parent_lt hp) fun heq => by
      rw [heq] at hlist
      cases hlist
    obtain ⟨hlink, hsame⟩ := h.back x p hx hlt hp
    rw [h.kind_eq hlt] at hlist
    rw [h.kind_eq hx] at hne
    exact hs.ample.listed hlink hlist hne (hsame ▸ hrole)

end Store.Thins

theorem supplied_round (h : s.Supplied) :
    Edit.Gives Unused.round s fun _ s' => s'.Supplied := by
  refine (Unused.gives_round h.sound h.ordered).mono fun _ s' hs => ?_
  exact ⟨hs.evolves.sound, hs.ordered, hs.ample ⟨(evolves_scanTree h.sound).sound,
    h.ordered.scanTree, (fills_scan (M := ∅) h.ample).ample⟩⟩

/-! ### Substitution -/

namespace Substitution

variable {write : Data.Writer} {call : NodeId} {p : Permutation} {args : List NodeId}

/-- What replaces a question has its parts and can be put anywhere. -/
theorem ample_answer (ha : s.Ample) (query : Query) (value : Data) :
    Gives Ample (answer write call query args value) s fun result s' =>
      ∀ new ∈ result, Fills ∅ s s' ∧ s'.Handy new := by
  rw [answer, gives_get_bind]
  cases query with
  | value =>
      dsimp only
      split
      · exact gives_throw ha _
      case h_2 tree hparse =>
          rcases hgraft : s.graft tree with ⟨new, s₁⟩
          obtain ⟨hs, -, hnew⟩ :=
            fills_graft (M := ∅) ha (built_of_parseExpression hparse).full hgraft
          rw [gives_set_bind]
          refine gives_pure hs.ample ?_
          rintro _ ⟨⟩
          exact ⟨hs, hnew⟩
  | isSet =>
      dsimp only
      split
      · exact gives_pure ha (by simp)
      case h_2 expected _ =>
          rcases hadd : s.add
            { kind := if agrees value expected then .trueLit else .falseLit, span := s.span call }
            with ⟨new, s₁⟩
          obtain ⟨hs, hnew, -⟩ := handy_of_add (M := ∅) ha hadd (by dsimp only; split <;> simp)
          rw [gives_set_bind]
          refine gives_pure hs.ample ?_
          rintro _ ⟨⟩
          exact ⟨hs, hnew⟩
  | select =>
      dsimp only
      split
      · exact gives_pure ha (by simp)
      case h_2 map hmap =>
          refine gives_ite (fun _ => gives_pure ha (by simp)) fun _ => ?_
          split
          case h_1 branch hbranch =>
              obtain ⟨name, hmem⟩ := mem_of_branch? hbranch
              obtain ⟨property, hproperty, hsome⟩ := List.mem_filterMap.mp hmem
              simp only [Option.bind_eq_bind, Option.bind_eq_some_iff] at hsome
              obtain ⟨_, hguard, key, -, new, hnew, heq⟩ := hsome
              obtain ⟨-, rfl⟩ : keyText s key = name ∧ new = branch := by simpa [pure] using heq
              have hinit := eq_of_beq ((Option.guard_eq_some' _).mp hguard)
              have hnew' := ha.handy_of_mem (mem_of_nth? hnew) (by simp [hinit])
              have hs := fills_remove (M := ∅) ha hnew'.spare
              rw [gives_set_bind]
              refine gives_pure hs.ample ?_
              rw [hbranch]
              rintro _ ⟨⟩
              exact ⟨hs, hnew'.of_fills_empty hs⟩
          case h_2 hnone =>
              refine gives_pure ha ?_
              rw [hnone]
              simp

theorem ample_replacement? (ha : s.Ample) :
    Gives Ample (replacement? write p call) s fun result s' =>
      ∀ new ∈ result, (s'.replace call new).Ample := by
  rw [replacement?, gives_get_bind]
  split
  · exact gives_pure ha (by simp)
  case h_2 query args value hquery =>
      obtain ⟨_, hguard, -⟩ := Option.bind_eq_some_iff.mp hquery
      have hkind : s.kind call = .call := eq_of_beq ((Option.guard_eq_some' _).mp hguard)
      refine (ample_answer ha query value).mono fun result s' hs new hnew => ?_
      obtain ⟨hfills, hnew⟩ := hs new hnew
      refine ample_replace hfills.ample ?_ hnew
      rw [hfills.kind_eq call (lt_of_kind (by simp [hkind])), hkind]
      simp [Kind.Yields]

end Substitution

theorem ample_substituteBy (h : s.Ample) (write : Data.Writer) (p : Permutation) :
    Gives Ample (substituteBy write p) s fun _ _ => True := by
  refine gives_ite (fun _ => gives_pure h trivial) fun _ => ?_
  rw [gives_get_bind]
  exact Substitution.gives_visit (fun _ _ hs => Substitution.ample_replacement? hs) h _

/-! ### Replacement of names -/

theorem ample_foldl_setText {items : List (NodeId × String)} (h : s.Ample)
    (text : NodeId × String → String) :
    (items.foldl (fun s item => s.setText item.1 (text item)) s).Ample :=
  List.foldlRecOn _ _ h fun _ hs item _ => (fills_setText (M := ∅) hs (text item)).ample

theorem ample_renameLocals (h : s.Ample) : Gives Ample renameLocals s fun _ _ => True := by
  have hscan : s.scanTree.Ample := (fills_scan (M := ∅) h).ample
  rw [renameLocals, gives_modify_bind, gives_get_bind]
  split
  · exact gives_refuse hscan _
  · dsimp only
    rw [gives_set_bind]
    exact gives_pure (ample_foldl_setText hscan Prod.snd) trivial

theorem ample_replacePrivates (h : s.Ample) (context : String) :
    Gives Ample (replacePrivates context) s fun _ _ => True := by
  rw [replacePrivates, replacePrivatesBy, gives_get_bind]
  dsimp only
  split
  · exact gives_refuse h _
  · refine (gives_foldlM h fun found member s' hs => ?_).bind fun replacements s' _ _ => ?_
    · exact Privates.gives_addReplacement hs found member
    · rw [gives_set_bind]
      exact gives_pure (ample_foldl_setText h fun item =>
        (replacements.lookup item.2).getD item.2) trivial

/-! ### Sequences of passes -/

namespace Transform

theorem supplied_run (h : s.Supplied) (transform : Transform) : (transform.run s).Supplied := by
  refine ⟨sound_run h.sound transform, ordered_run h.ordered transform, ?_⟩
  have hgives : Gives Ample transform.pass s fun _ _ => True := by
    cases transform with
    | substitution p => exact ample_substituteBy h.ample _ p
    | branches => exact gives_lift ((supplied_removeDeadBranches h).mono fun _ _ hs => hs.ample)
    | unused =>
        have hsettle := Unused.gives_settle (I := Supplied) (fun _ hs => supplied_round hs) h false
        exact ⟨(hsettle _).1.ample, fun _ _ => trivial⟩
    | declarations => exact gives_lift ((supplied_combineDeclarations h).mono fun _ _ hs => hs.ample)
    | blocks => exact gives_lift ((supplied_reduceBlocks h).mono fun _ _ hs => hs.ample)
    | locals => exact ample_renameLocals h.ample
    | privates context => exact ample_replacePrivates h.ample context
  exact hgives.1

/-- Whatever passes run one after the other, everything keeps what it needs. -/
theorem supplied_foldl_run (h : s.Supplied) (transforms : List Transform) :
    (transforms.foldl run s).Supplied :=
  List.foldlRecOn _ _ h fun _ hs transform _ => supplied_run hs transform

end Transform

theorem supplied_of_parseScript {source : String} {line : Nat} {t : Tree}
    (h : parseScript source line = .ok t) (transforms : List Transform) :
    (transforms.foldl Transform.run (.ofTree t)).Supplied := by
  obtain ⟨hbuilt, hkind⟩ := built_of_parseScript h
  obtain ⟨hfits, -⟩ := fits_of_parseScript h
  exact Transform.supplied_foldl_run ⟨sound_ofTree hbuilt.formed hkind, ordered_ofTree hfits hkind,
    ample_ofTree hbuilt.full hkind⟩ transforms

end ScriptMin
