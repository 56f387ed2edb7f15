import ScriptMin.Proofs.Grammar.Jumps
import ScriptMin.Proofs.Pass.DeclarationJumps
import ScriptMin.Proofs.Pass.Forests
import ScriptMin.Proofs.Pass.ReductionJumps
import ScriptMin.Proofs.Pass.Soundness

/-!
Jumps stay valid. The parser accepts a jump only where its target is around it, and every pass
leaves a store with a plan behind, whether it comes to its end or stops with an error. Main
statement: in a script that is accepted, and in what is left of it after any sequence of passes,
every jump has its target in the body of its own function.
-/

namespace ScriptMin

open Store Pass

variable {s s' : Store} {id : NodeId} {C : Plan}

/-- A pass that leaves forests and plans behind leaves forests with plans. -/
theorem Pass.Gives.ordered {α : Type} {m : Pass α} {Q R : α → Store → Prop}
    (h : Gives Forest m s Q) (h' : Gives Arranged m s R) :
    Gives Store.Ordered m s fun a s' => Q a s' ∧ R a s' :=
  ⟨⟨h.1, h'.1⟩, fun a ha => ⟨h.2 a ha, h'.2 a ha⟩⟩

/-! ### Substitution -/

namespace Substitution

variable {write : Data.Writer} {call : NodeId} {p : Permutation} {args : List NodeId}

/-- What replaces a question is a value that is allowed where the question is. -/
theorem arranged_answer (h : s.Ordered) (hC : Planned C s)
    (hargs : ∀ arg ∈ args, C arg ≤ (C call).idle) (query : Query) (value : Data) :
    Gives Arranged (answer write call query args value) s fun result s' =>
      ∀ new ∈ result, ∃ C', Extends C s C' s' ∧ Value C' s' (C call) new := by
  rw [answer, gives_get_bind]
  cases query with
  | value =>
      dsimp only
      split
      · exact gives_throw h.arranged _
      case h_2 tree hparse =>
          obtain ⟨hexpression, hfloats⟩ := valued_of_parseExpression hparse
          obtain ⟨C', hs, hplan, hhead⟩ := hC.graft h.toForest (hfloats (C call).value (by simp))
          obtain ⟨hid, -, hlt, -⟩ := graft_spec s tree
          rw [← hid] at hlt
          rcases hgraft : s.graft tree with ⟨new, s₁⟩
          rw [hgraft] at hs hplan hhead hlt
          rw [gives_set_bind]
          refine gives_pure hs.rearranged.arranged ?_
          rintro _ ⟨⟩
          exact ⟨C', hs, hlt, by rw [hhead]; exact hexpression, hplan.trans_le Reach.value_le,
            by rw [hplan]; rfl⟩
  | isSet =>
      dsimp only
      split
      · exact gives_pure h.arranged (by simp)
      case h_2 expected _ =>
          rcases hadd : s.add
            { kind := if agrees value expected then .trueLit else .falseLit, span := s.span call }
            with ⟨new, s₁⟩
          obtain ⟨C', hmade⟩ := hC.made_add (X := (C call).value) (Head.fitsIn_of_not_isBound (by
            dsimp only
            split <;> rfl)) hadd
          rw [gives_set_bind]
          refine gives_pure hmade.rearranged.arranged ?_
          rintro _ ⟨⟩
          refine ⟨C', hmade.toExtends, hmade.value ?_⟩
          dsimp only
          split <;> rfl
  | select =>
      dsimp only
      split
      · exact gives_pure h.arranged (by simp)
      case h_2 map hmap =>
          refine gives_ite (fun _ => gives_pure h.arranged (by simp)) fun hkind => ?_
          rw [not_not] at hkind
          have hmap' := hargs map (List.mem_of_getElem? hmap)
          split
          case h_1 branch hbranch =>
              obtain ⟨name, hmem⟩ := mem_of_branch? hbranch
              obtain ⟨property, hproperty, hsome⟩ := List.mem_filterMap.mp hmem
              simp only [Option.bind_eq_bind, Option.bind_eq_some_iff] at hsome
              obtain ⟨_, hguard, key, -, new, hnew, heq⟩ := hsome
              obtain ⟨-, rfl⟩ : keyText s key = name ∧ new = branch := by simpa [pure] using heq
              have hinit : s.kind property = .propertyInit :=
                eq_of_beq ((Option.guard_eq_some' _).mp hguard)
              -- The branch is an operand of a property of the map.
              have hproperty' : Value C s (C call).idle property :=
                (hC.value_of_mem h.toLinked (by rw [hkind]; rfl) hproperty).mono
                  (Reach.idle_mono (Y := (C call).idle) hmap')
              have hbranch' := (hC.value_of_value h.toLinked hproperty' (by rw [hinit]; rfl)
                (mem_of_nth? hnew)).mono Reach.idle_le
              have hs : Extends C s C (s.remove new) := hC.remove
              rw [gives_set_bind]
              refine gives_pure hs.rearranged.arranged ?_
              rw [hbranch]
              rintro _ ⟨⟩
              exact ⟨C, hs, hbranch'.of_extends hs⟩
          case h_2 hnone =>
              refine gives_pure h.arranged ?_
              rw [hnone]
              simp

/-- The arguments of a question are allowed in its place. -/
theorem arranged_replacement? (h : s.Ordered) (hC : Planned C s) :
    Gives Arranged (replacement? write p call) s fun result s' => ∀ new ∈ result,
      s.kind call = .call ∧ ∃ C', Extends C s C' s' ∧ Value C' s' (C call) new := by
  rw [replacement?, gives_get_bind]
  split
  · exact gives_pure h.arranged (by simp)
  case h_2 query args value hquery =>
      simp only [query?, Option.bind_eq_bind, Option.bind_eq_some_iff] at hquery
      obtain ⟨_, hguard, callee, -, _, -, _, -, key, hkey, _, hstring, _, -, heq⟩ := hquery
      have hkind : s.kind call = .call := eq_of_beq ((Option.guard_eq_some' _).mp hguard)
      have hkeyKind : s.kind key = .string := eq_of_beq ((Option.guard_eq_some' _).mp hstring)
      have hargs : ((s.nth? call 1).map s.children).getD [] = args := by
        simp only [pure, Option.some_inj, Prod.mk.injEq] at heq
        exact heq.2.1
      refine (arranged_answer h hC (fun arg harg => ?_) query value).mono
        fun result s' hs new hnew => ⟨hkind, hs new hnew⟩
      rw [hargs] at hkey
      cases hnth : s.nth? call 1 with
      | none =>
          rw [hnth] at hargs
          obtain rfl : [] = args := hargs
          cases harg
      | some list =>
          rw [hnth] at hargs
          obtain rfl : s.children list = args := hargs
          have hlist := hC.value_of_mem h.toLinked (by rw [hkind]; rfl) (mem_of_nth? hnth)
          -- The list of arguments holds a text, so it is no function.
          have hfunction : (s.head list).kind ≠ .function := by
            intro hfunction
            have hadmits := hC.admits (h.parent?_of_mem (List.mem_of_mem_head? hkey))
            rcases hadmits.function hfunction with hbad | hbad
            all_goals
              rw [show (s.head key).kind = _ from hkeyKind] at hbad
              cases hbad
          have hle := hC.below (h.parent?_of_mem harg)
          rw [Head.inside_of_isExpression hlist.isExpression hfunction] at hle
          exact hle.trans (Reach.idle_mono (Y := (C call).idle) hlist.le)

theorem ordered_replacement? (h : s.Ordered) :
    Gives Store.Ordered (replacement? write p call) s fun result s' =>
      ∀ new ∈ result, (s'.replace call new).Ordered := by
  obtain ⟨C, hC⟩ := h.arranged
  refine Edit.Gives.mono ((gives_replacement? h.toForest).ordered (arranged_replacement? h hC))
    fun result s' hs => ⟨hs.1, fun a ha new hnew => ?_⟩
  have hmovable := (hs.2 a ha).1 new hnew
  obtain ⟨hkind, C', hs', hvalue⟩ := (hs.2 a ha).2 new hnew
  have hlt : call < s.size := lt_of_kind (by simp [hkind])
  refine ⟨hs.1.toForest.replace hmovable.lt hmovable.ne_root (hmovable.off call rfl), C', ?_⟩
  refine (hs'.planned.replace_of_not_isFixed hvalue.lt ?_ ?_ fun _ => hvalue.isExpression).planned
  · rw [hs'.plan_eq call hlt]
    exact hvalue.le
  · rw [hs'.kind_eq hlt, hkind]
    rfl

end Substitution

theorem ordered_substituteBy (h : s.Ordered) (write : Data.Writer) (p : Permutation) :
    Gives Store.Ordered (substituteBy write p) s fun _ _ => True := by
  refine gives_ite (fun _ => gives_pure h trivial) fun _ => ?_
  rw [gives_get_bind]
  exact Substitution.gives_visit (fun _ _ hs => Substitution.ordered_replacement? hs) h _

/-! ### Replacement of names -/

/-- Jumps do not refer to the names of variables and members. -/
theorem ordered_foldl_setText {items : List (NodeId × String)} (h : s.Ordered)
    (hitems : ∀ item ∈ items, s.CarriesName item.1) (text : NodeId × String → String) :
    (items.foldl (fun s item => s.setText item.1 (text item)) s).Ordered := by
  obtain ⟨C, hC⟩ := h.arranged
  suffices hboth : (items.foldl (fun s item => s.setText item.1 (text item)) s).Forest ∧
      Extends C s C (items.foldl (fun s item => s.setText item.1 (text item)) s) from
    ⟨hboth.1, hboth.2.rearranged.arranged⟩
  refine List.foldlRecOn (motive := fun s' => s'.Forest ∧ Extends C s C s') _ _
    ⟨h.toForest, .refl hC⟩ ?_
  rintro s' ⟨hforest, hs⟩ item hitem
  have hnamed := (hitems item hitem).kind
  refine ⟨hforest.setText _, hs.trans (hs.planned.setPayload _ ?_)⟩
  rw [hs.kind_eq (lt_of_kind fun hscript => by rw [hscript] at hnamed; cases hnamed)]
  cases hkind : s.kind item.1 <;> first | rfl | (rw [hkind] at hnamed; cases hnamed)

theorem Store.Ordered.scan (h : s.Ordered) : (s.scan id).Ordered := by
  obtain ⟨C, hC⟩ := h.arranged
  exact ⟨h.toForest.scan, hC.scan.rearranged.arranged⟩

theorem ordered_renameLocals (h : s.Ordered) :
    Gives Store.Ordered renameLocals s fun _ _ => True := by
  rw [renameLocals, gives_modify_bind, gives_get_bind]
  split
  · exact gives_refuse h.scan _
  · dsimp only
    rw [gives_set_bind]
    refine gives_pure ?_ trivial
    exact ordered_foldl_setText h.scan (fun _ => Locals.carriesName_of_mem_renamings) Prod.snd

theorem ordered_replacePrivates (h : s.Ordered) (context : String) :
    Gives Store.Ordered (replacePrivates context) s fun _ _ => True := by
  rw [replacePrivates, replacePrivatesBy, gives_get_bind]
  dsimp only
  split
  · exact gives_refuse h _
  · refine (gives_foldlM h fun found member s' hs => ?_).bind fun replacements s' _ _ => ?_
    · exact Privates.gives_addReplacement hs found member
    · rw [gives_set_bind]
      exact gives_pure (ordered_foldl_setText h (fun _ => Privates.carriesName_of_mem_members)
        fun item => (replacements.lookup item.2).getD item.2) trivial

/-! ### Sequences of passes -/

namespace Transform

theorem ordered_run (h : s.Ordered) (transform : Transform) : (transform.run s).Ordered := by
  have hgives : Gives Store.Ordered transform.pass s fun _ _ => True := by
    cases transform with
    | substitution p => exact ordered_substituteBy h _ p
    | branches => exact gives_lift (keepsOrder_removeDeadBranches h).1
    | unused =>
        exact Unused.gives_settle (I := Store.Ordered)
          (fun _ hs => (Unused.keepsOrder_round hs).1) h false _
    | declarations => exact gives_lift (keepsOrder_combineDeclarations h).1
    | blocks => exact gives_lift (keepsOrder_reduceBlocks h).1
    | locals => exact ordered_renameLocals h
    | privates context => exact ordered_replacePrivates h context
  exact hgives.1

/-- Whatever passes run one after the other, they leave a forest with a plan. -/
theorem ordered_foldl_run (h : s.Ordered) (transforms : List Transform) :
    (transforms.foldl run s).Ordered :=
  List.foldlRecOn _ _ h fun _ hs transform _ => ordered_run hs transform

end Transform

theorem ordered_ofTree {t : Tree} (ht : t.Fits {}) (hkind : t.head.kind = .script) :
    (ofTree t).Ordered :=
  ⟨forest_ofTree t, exists_planned_ofTree ht hkind⟩

/-- In a store with a plan all jumps have their targets. -/
theorem Store.Ordered.jumpsHaveTargets (h : s.Ordered) : (s.view s.root).JumpsHaveTargets := by
  obtain ⟨C, hC⟩ := h.arranged
  exact (hC.fits_view_root h.toLinked).jumpsHaveTargets

/-- In a script that is accepted, and in the tree that any sequence of passes leaves of it, every
jump has its target in the body of its own function. -/
theorem jumpsHaveTargets_foldl_run {source : String} {line : Nat} {t : Tree}
    (h : parseScript source line = .ok t) :
    t.JumpsHaveTargets ∧ ∀ transforms : List Transform,
      let s := transforms.foldl Transform.run (.ofTree t)
      (s.view s.root).JumpsHaveTargets := by
  obtain ⟨hfits, hkind⟩ := fits_of_parseScript h
  refine ⟨hfits.jumpsHaveTargets, fun transforms => ?_⟩
  exact (Transform.ordered_foldl_run (ordered_ofTree hfits hkind) transforms).jumpsHaveTargets

def labelledLoop : String :=
  "function f()\x7ba:while(b)\x7bswitch(1)\x7bcase 1:c();break\x7dcontinue a\x7dreturn d\x7d"

theorem jumpsHaveTargets_foldl_run_labelledLoop : ∃ t, parseScript labelledLoop 1 = .ok t ∧
    t.JumpsHaveTargets ∧ ∀ transforms : List Transform,
      let s := transforms.foldl Transform.run (.ofTree t)
      (s.view s.root).JumpsHaveTargets := by
  have haccepted : (parseScript labelledLoop 1).toOption.isSome := by decide +kernel
  cases hparse : parseScript labelledLoop 1 with
  | error fault =>
      rw [hparse] at haccepted
      cases haccepted
  | ok t => exact ⟨t, rfl, jumpsHaveTargets_foldl_run hparse⟩

end ScriptMin
