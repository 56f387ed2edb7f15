import ScriptMin.Proofs.Pass.Lightening
import ScriptMin.Proofs.Pass.Parts
import ScriptMin.Proofs.Pass.Resolving

/-!
The removal of dead branches leaves nothing to be decided. Whether there is something to decide at a
node depends on what is below it, and a decision touches nothing below the nodes that were looked at
before, other than to cut out what it decides. So nothing that has been found undecided can be decided
later. As every decision takes a node away at which there could be something to decide, and adds none,
the tree has changed if and only if something was decided.
-/

namespace ScriptMin

open Store Branches

namespace Store

variable {s s' : Store} {id x y z c p : NodeId} {news : List NodeId} {lost : Option NodeId}

/-! ### Untouched parts -/

/-- Below a node all is as it was, and the node is still of its kind. -/
structure Untouched (s s' : Store) (x : NodeId) : Prop where
  top : s'.kind x = s.kind x
  head_eq : ∀ y, s.Within y x → y ≠ x → s'.head y = s.head y
  children_eq : ∀ y, s.Within y x → s'.children y = s.children y

namespace Untouched

variable (h : Untouched s s' x) (hs : s.Forest) (hs' : s'.Forest)

include h

theorem kind_eq (hy : s.Within y x) : s'.kind y = s.kind y := by
  by_cases hne : y = x
  · rw [hne, h.top]
  · exact congrArg Head.kind (h.head_eq y hy hne)

theorem nth?_eq (i : Nat) : s'.nth? x i = s.nth? x i := by
  rw [nth?, nth?, h.children_eq x .refl]

include hs

theorem child?_eq (hy : s.Within y x) (role : Role) : s'.child? y role = s.child? y role := by
  rw [child?, child?, h.children_eq y hy]
  refine List.find?_congr fun c hc => ?_
  have hlink := hs.parent?_of_mem hc
  have hne : c ≠ x := by
    rintro rfl
    exact hs.acyclic c y hlink hy
  rw [role?, role?, h.head_eq c ((within_of_parent hlink).trans hy) hne]

include hs'

theorem view_eq (hy : s.Within y x) (hne : y ≠ x) : s'.view y = s.view y := by
  refine hs'.view_eq ((hs.shows_view y).congr hs.toLinked hs' (fun z hz => ?_) fun z hz => ?_)
  · refine h.head_eq z (hz.trans hy) ?_
    rintro rfl
    exact hne (hs.eq_of_within hy hz)
  · exact h.children_eq z (hz.trans hy)

theorem within_iff (hy : s.Within y x) : s'.Within z y ↔ s.Within z y := by
  constructor
  · intro hz
    induction hz using Relation.ReflTransGen.head_induction_on with
    | refl => exact .refl
    | @head z q hlink _ ih =>
        have hmem := (hs'.linked q z).mpr hlink
        rw [h.children_eq q (ih.trans hy)] at hmem
        exact (within_of_parent (hs.parent?_of_mem hmem)).trans ih
  · intro hz
    induction hz using Relation.ReflTransGen.head_induction_on with
    | refl => exact .refl
    | @head z q hlink hq ih =>
        have hmem := (hs.linked q z).mpr hlink
        rw [← h.children_eq q (Within.trans hq hy)] at hmem
        exact (within_of_parent (hs'.parent?_of_mem hmem)).trans ih

/-- From below a node of a given kind the nearest one of the kind is the one it was. -/
theorem ancestor?_eq {kinds : List Kind} (hx : kinds.contains (s.kind x)) (hy : s.Within y x) :
    s'.ancestor? y kinds = s.ancestor? y kinds := by
  have hnear : ∃ found, s.Nearest kinds y found ∧ s'.Nearest kinds y found := by
    induction hy using Relation.ReflTransGen.head_induction_on with
    | refl => exact ⟨x, .here hx, .here (by rwa [h.top])⟩
    | @head y q hlink hq ih =>
        obtain ⟨found, hnear, hnear'⟩ := ih
        have hy : s.Within y x := (within_of_parent hlink).trans hq
        have hkind := h.kind_eq hy
        by_cases hmem : kinds.contains (s.kind y)
        · exact ⟨y, .here hmem, .here (by rwa [hkind])⟩
        · rw [Bool.not_eq_true] at hmem
          refine ⟨found, .above hmem hlink hnear, .above (by rwa [hkind]) ?_ hnear'⟩
          refine hs'.parent?_of_mem ?_
          rw [h.children_eq q hq]
          exact (hs.linked q y).mpr hlink
  obtain ⟨found, hnear, hnear'⟩ := hnear
  rw [hs.ancestor?_eq_some hnear, hs'.ancestor?_eq_some hnear']

/-! ### Choices -/

omit hs hs' in
theorem isPlainBreak_eq (hy : s.Within y x) (hne : y ≠ x) :
    isPlainBreak s' y = isPlainBreak s y := by
  simp only [isPlainBreak, kind, text?, h.head_eq y hy hne]

omit hs' in
theorem ne_of_mem (hy : s.Within y x) (hc : c ∈ s.children y) : s.Within c x ∧ c ≠ x := by
  have hlink := hs.parent?_of_mem hc
  refine ⟨(within_of_parent hlink).trans hy, ?_⟩
  rintro rfl
  exact hs.acyclic c y hlink hy

omit hs' in
theorem endsInBreak_eq (hy : s.Within y x) : endsInBreak s' y = endsInBreak s y := by
  rw [endsInBreak, endsInBreak, h.children_eq y hy]
  cases hlast : (s.children y).getLast? with
  | none => rfl
  | some last =>
      obtain ⟨hbelow, hne⟩ := h.ne_of_mem hs hy (List.mem_of_getLast? hlast)
      rw [Option.any_some, Option.any_some, h.isPlainBreak_eq hbelow hne]

theorem breaksEarly_eq (hx : breakTargets.contains (s.kind x)) (hy : s.Within y x) :
    breaksEarly s' x y = breaksEarly s x y := by
  rw [breaksEarly, breaksEarly, h.children_eq y hy]
  rw [Bool.eq_iff_iff, List.any_eq_true, List.any_eq_true]
  refine exists_congr fun c => and_congr_right fun hc => ?_
  rw [List.any_eq_true, List.any_eq_true]
  refine exists_congr fun z => ?_
  obtain ⟨hbelow, hne⟩ := h.ne_of_mem hs hy (List.mem_of_mem_dropLast hc)
  rw [hs'.mem_descendants_iff, hs.mem_descendants_iff, h.within_iff hs hs' hbelow]
  refine and_congr_right fun hz => ?_
  have hzne : z ≠ x := by
    rintro rfl
    exact hne (hs.eq_of_within hbelow hz)
  rw [h.isPlainBreak_eq (hz.trans hbelow) hzne, h.ancestor?_eq hs hs' hx (hz.trans hbelow)]

theorem consider_eq {value clause : NodeId} {choice : Choice}
    (hx : breakTargets.contains (s.kind x)) (hvalue : value ∈ s.children x)
    (hclause : clause ∈ s.children x) :
    consider s' x value choice clause = consider s x value choice clause := by
  obtain ⟨hbelow, -⟩ := h.ne_of_mem hs .refl hclause
  obtain ⟨hvalueBelow, hvalueNe⟩ := h.ne_of_mem hs .refl hvalue
  simp only [consider, h.child?_eq hs hbelow, h.kind_eq hbelow,
    h.view_eq hs hs' hvalueBelow hvalueNe]
  cases hbody : s.child? clause .statements with
  | none => rfl
  | some body =>
      have hbodyBelow := (h.ne_of_mem hs hbelow (mem_of_child? hbody)).1
      simp only [Option.bind_eq_bind, Option.bind_some, h.endsInBreak_eq hs hbodyBelow,
        h.breaksEarly_eq hs hs' hx hbodyBelow]
      cases hlabel : s.child? clause .label with
      | none => rfl
      | some label =>
          obtain ⟨hlabelBelow, hlabelNe⟩ := h.ne_of_mem hs hbelow (mem_of_child? hlabel)
          simp only [Option.bind_some, h.view_eq hs hs' hlabelBelow hlabelNe,
            h.kind_eq hlabelBelow]

/-- The choice of a clause depends on what is below the `switch`. -/
theorem choice?_eq (hkind : s.kind x = .switchCase) : choice? s' x = choice? s x := by
  have htarget : breakTargets.contains (s.kind x) := by rw [hkind]; rfl
  rw [choice?, choice?, h.child?_eq hs .refl]
  cases hvalue : s.child? x .discriminant with
  | none => rfl
  | some value =>
      have hmem := mem_of_child? hvalue
      have hclauses : clausesOf s' x = clausesOf s x := by
        rw [clausesOf, clausesOf, h.children_eq x .refl]
        refine List.filter_congr fun c hc => ?_
        rw [h.kind_eq (h.ne_of_mem hs .refl hc).1]
      have hfold : ∀ (clauses : List NodeId) (choice : Choice), (∀ c ∈ clauses, c ∈ s.children x) →
          clauses.foldlM (consider s' x value) choice = clauses.foldlM (consider s x value) choice := by
        intro clauses
        induction clauses with
        | nil => exact fun _ _ => rfl
        | cons clause rest ih =>
            intro choice hclauses
            rw [List.forall_mem_cons] at hclauses
            rw [List.foldlM_cons, List.foldlM_cons, h.consider_eq hs hs' htarget hmem hclauses.1]
            exact bind_congr fun next => ih next hclauses.2
      simp only [Option.bind_eq_bind, Option.bind_some, h.kind_eq (h.ne_of_mem hs .refl hmem).1]
      congr 1
      funext _
      exact (congrArg _ hclauses).trans (hfold _ _ fun c hc => (List.mem_filter.mp hc).1)

end Untouched

/-! ### Undecided nodes -/

/-- There is nothing to decide at a node: if it has a condition, nothing is known of its truth, and
if it is a `switch`, no clause can be chosen. -/
structure Undecided (s : Store) (x : NodeId) : Prop where
  ifElse : s.kind x = .ifElse → ∀ c, s.child? x .condition = some c → (s.view c).truth? = none
  conditional : s.kind x = .conditional → ∀ c, s.nth? x 0 = some c → (s.view c).truth? = none
  switchCase : s.kind x = .switchCase → choice? s x = none

/-- What is below a node determines whether there is something to decide at it. -/
theorem Untouched.undecided (h : Untouched s s' x) (hs : s.Forest) (hs' : s'.Forest)
    (hx : s.Undecided x) : s'.Undecided x where
  ifElse hkind c hc := by
    rw [h.top] at hkind
    rw [h.child?_eq hs .refl] at hc
    obtain ⟨hbelow, hne⟩ := h.ne_of_mem hs .refl (mem_of_child? hc)
    rw [h.view_eq hs hs' hbelow hne]
    exact hx.ifElse hkind c hc
  conditional hkind c hc := by
    rw [h.top] at hkind
    rw [h.nth?_eq] at hc
    obtain ⟨hbelow, hne⟩ := h.ne_of_mem hs .refl (mem_of_nth? hc)
    rw [h.view_eq hs hs' hbelow hne]
    exact hx.conditional hkind c hc
  switchCase hkind := by
    rw [h.top] at hkind
    rw [h.choice?_eq hs hs' hkind]
    exact hx.switchCase hkind

theorem undecided_of_kind (hif : s.kind x ≠ .ifElse) (hconditional : s.kind x ≠ .conditional)
    (hswitch : s.kind x ≠ .switchCase) : s.Undecided x :=
  ⟨fun h => absurd h hif, fun h => absurd h hconditional, fun h => absurd h hswitch⟩

/-- A decision touches nothing below the nodes that stay and are not above it, but a `break` at the
end of a block that takes the place of a `switch`. -/
theorem Cuts.untouched (h : Cuts s s' id news lost) (hx : x < s.size) (hstays : s.Stays id news x)
    (hid : ¬ s.Within id x) (hlost : ∀ y, lost = some y → ¬ s.Within y x) : Untouched s s' x := by
  have hlt : ∀ y, s.Within y x → y < s.size := by
    intro y hy
    rcases hy.cases with rfl | ⟨p, hp, -⟩
    · exact hx
    · exact parent?_lt hp
  have hbelow : ∀ y, s.Within y x → s.Stays id news y := by
    intro y hy
    rcases hstays with hout | ⟨n, hn, hin⟩
    · exact .inl fun hyid => (hy.total hyid).elim hout hid
    · exact .inr ⟨n, hn, hy.trans hin⟩
  refine ⟨h.kind_eq hx, fun y hy hne => ?_, fun y hy => ?_⟩
  · have hnew : y ∉ news := by
      intro hmem
      have hyid := (h.below y hmem (hlt y hy)).1
      rcases hstays with hout | ⟨n, hn, hin⟩
      · exact (hy.total hyid).elim hout hid
      · obtain rfl := h.apart y hmem n hn (hy.trans hin)
        exact hne (h.base.eq_of_within hy hin)
    refine Head.eq_of_bare (h.bare_eq y (hlt y hy)) (h.flags_eq y (hlt y hy)) ?_
    exact h.role_eq y (hlt y hy) (hbelow y hy) hnew fun heq => hlost y heq hy
  · rw [h.children_eq y (hlt y hy) (hbelow y hy), flatMap_instead]
    · refine List.filter_eq_self.mpr fun c hc => decide_eq_true fun heq => ?_
      exact hlost c heq ((within_of_parent (h.base.parent?_of_mem hc)).trans hy)
    · exact fun hmem => hid ((within_of_parent (h.base.parent?_of_mem hmem)).trans hy)

/-- Nodes at which there is nothing to decide remain so if something above them or beside them is
decided. -/
theorem Cuts.undecided (h : Cuts s s' id news lost) (hroot : s'.Within x s'.root)
    (hx : s.Within x s.root → s.Stays id news x → ¬ s.Within id x ∧ s.Undecided x) :
    s'.Undecided x := by
  rcases h.of_attached hroot with ⟨hlt, hattached, hstays⟩ | ⟨hnew, hle⟩
  case inr =>
    have hkind := (h.added x hnew hle).1
    exact undecided_of_kind (by simp [hkind]) (by simp [hkind]) (by simp [hkind])
  obtain ⟨hid, hundecided⟩ := hx hattached hstays
  by_cases hlost : ∃ y, lost = some y ∧ s.Within y x
  case neg =>
    push Not at hlost
    exact (h.untouched hlt hstays hid hlost).undecided h.base h.forest hundecided
  obtain ⟨y, hy, hyx⟩ := hlost
  obtain ⟨hyid, -, p, hp, hblock⟩ := h.lost_below y hy
  -- The node is the `break` that is lost or the block it was in.
  have hkind : s.kind x = .breakStmt ∨ s.kind x = .block := by
    obtain ⟨n, hn, hin⟩ := hstays.resolve_left fun hout => (hyx.total hyid).elim hout hid
    obtain heq | ⟨q, hq, hqx⟩ := hyx.cases
    · exact .inl (heq ▸ (h.lost_leaf y hy).1)
    · obtain rfl := Option.some_inj.mp (hp.symm.trans hq)
      rcases h.lost_top y hy n hn (hyx.trans hin) with rfl | hparent
      · exact absurd (hqx.trans hin) (h.base.acyclic y p hp)
      · obtain rfl := Option.some_inj.mp (hp.symm.trans hparent)
        exact .inr (h.base.eq_of_within hqx hin ▸ hblock)
  rw [← h.kind_eq hlt] at hkind
  rcases hkind with hkind | hkind
  all_goals exact undecided_of_kind (by simp [hkind]) (by simp [hkind]) (by simp [hkind])

end Store

/-! ### Counting -/

/-- What a node counts at which there can be something to decide. -/
def Head.forks (h : Head) : Nat :=
  if h.kind matches .ifElse | .conditional | .switchCase then 1 else 0

namespace Store

variable {s s' : Store} {id : NodeId} {news : List NodeId} {lost : Option NodeId}

def forks (s : Store) : Nat := (s.view s.root).weight Head.forks

theorem Forest.forks_eq_sum (h : s.Forest) :
    s.forks = ∑ x ∈ (s.descendants s.root).toFinset, (s.head x).forks := by
  rw [List.sum_toFinset _ (h.nodup_descendants _), forks, weight_view]

/-- A decision takes away a node at which there can be something to decide, and adds none. -/
theorem Cuts.forks_lt (h : Cuts s s' id news lost) (hid : s.Within id s.root)
    (hforks : 0 < (s.head id).forks) : s'.forks < s.forks := by
  have hmem : id ∈ (s.descendants s.root).toFinset := by
    rw [List.mem_toFinset, h.base.mem_descendants_iff]
    exact hid
  have hkept : ∀ x, s'.Within x s'.root → (s'.head x).forks ≠ 0 →
      (s'.head x).forks = (s.head x).forks ∧ x ≠ id ∧ s.Within x s.root := by
    intro x hx hne
    have hsemicolon : s'.kind x ≠ .semicolon := by
      intro hkind
      rw [Head.forks, show (s'.head x).kind = _ from hkind] at hne
      exact hne rfl
    obtain ⟨hlt, hroot, hstays⟩ := h.old_of_attached hx (.inl hsemicolon)
    refine ⟨?_, ?_, hroot⟩
    · rw [Head.forks, Head.forks, show (s'.head x).kind = (s.head x).kind from h.kind_eq hlt]
    · rintro rfl
      rcases hstays with hout | ⟨n, hn, hin⟩
      · exact hout .refl
      · have hbelow := h.below n hn (h.base.within_lt hlt hin)
        exact hbelow.2 (h.base.eq_of_within hbelow.1 hin)
  rw [h.forest.forks_eq_sum, h.base.forks_eq_sum, ← Finset.sum_filter_ne_zero]
  refine lt_of_le_of_lt ?_ (Finset.sum_erase_lt_of_pos hmem hforks)
  rw [Finset.sum_congr rfl fun x hx => ?_]
  · refine Finset.sum_le_sum_of_subset fun x hx => ?_
    rw [Finset.mem_filter, List.mem_toFinset, h.forest.mem_descendants_iff] at hx
    obtain ⟨-, hne, hroot⟩ := hkept x hx.1 hx.2
    rw [Finset.mem_erase, List.mem_toFinset, h.base.mem_descendants_iff]
    exact ⟨hne, hroot⟩
  · rw [Finset.mem_filter, List.mem_toFinset, h.forest.mem_descendants_iff] at hx
    exact (hkept x hx.1 hx.2).1

end Store

/-! ### Deciding all nodes -/

namespace Branches

variable {s s' : Store} {id parent : NodeId}

/-- Where there is nothing to decide nothing is decided. -/
theorem run_decideNode_of_undecided (h : s.Undecided id) :
    (decideNode id).run s = (false, s) := by
  suffices hgives : Edit.Gives (decideNode id) s fun changed s' => changed = false ∧ s' = s from
    Prod.ext hgives.1 hgives.2
  rw [decideNode, Edit.gives_bind, Edit.gives_get]
  split
  case h_1 hkind =>
      rw [decideIf, Edit.gives_bind, Edit.gives_get]
      split
      case h_1 => exact ⟨rfl, rfl⟩
      case h_2 value htruth =>
          obtain ⟨c, hc, htruth⟩ := Option.bind_eq_some_iff.mp htruth
          rw [h.ifElse hkind c hc] at htruth
          cases htruth
  case h_2 hkind =>
      rw [decideConditional, Edit.gives_bind, Edit.gives_get]
      split
      case h_1 => exact ⟨rfl, rfl⟩
      case h_2 value htruth =>
          obtain ⟨c, hc, htruth⟩ := Option.bind_eq_some_iff.mp htruth
          rw [h.conditional hkind c hc] at htruth
          cases htruth
  case h_3 hkind =>
      rw [decideSwitch, Edit.gives_bind, Edit.gives_get, h.switchCase hkind]
      exact ⟨rfl, rfl⟩
  case h_4 => exact ⟨rfl, rfl⟩

theorem run_decideSwitch_of_choice {choice : Choice} (h : choice? s id = some choice) :
    ((decideSwitch id).run s).1 = true := by
  change Edit.Gives (decideSwitch id) s fun changed _ => changed = true
  rw [decideSwitch, Edit.gives_bind, Edit.gives_get, h]
  dsimp only
  split
  · rfl
  · split
    · rfl
    · rfl

/-- At a node something is decided, or there is nothing to decide. -/
theorem gives_decideNode_or (hs : s.Supplied) (hid : s.Within id s.root) :
    Edit.Gives (decideNode id) s fun changed s' =>
      changed = false ∧ s' = s ∧ s.Undecided id ∨
        changed = true ∧ 0 < (s.head id).forks ∧ ∃ news lost, Cuts s s' id news lost := by
  have hforest := hs.ordered.toForest
  have hparent : s.kind id ≠ .script → ∃ parent, s.parent? id = some parent := fun hkind =>
    (hid.cases.resolve_left (hs.sound.ne_root_of_kind hkind)).imp fun _ h => h.1
  have hforks : s.kind id = .ifElse ∨ s.kind id = .conditional ∨ s.kind id = .switchCase →
      0 < (s.head id).forks := by
    rintro (hkind | hkind | hkind)
    all_goals
      rw [Head.forks, show (s.head id).kind = _ from hkind]
      exact Nat.one_pos
  rw [decideNode, Edit.gives_bind, Edit.gives_get]
  split
  case h_1 hkind =>
      obtain ⟨parent, hlink⟩ := hparent (by simp [hkind])
      rw [decideIf, Edit.gives_bind, Edit.gives_get]
      split
      case h_1 hnone =>
          refine .inl ⟨rfl, rfl, fun _ c hc => ?_, by simp [hkind], by simp [hkind]⟩
          rwa [hc] at hnone
      case h_2 value htruth =>
          dsimp only
          split
          case h_1 branch hbranch =>
              refine .inr ⟨rfl, hforks (.inl hkind), ?_⟩
              rcases cuts_replaceStatement hforest hlink (mem_of_child? hbranch) with hcuts | ⟨-, hcuts⟩
              · exact ⟨_, _, hcuts⟩
              · exact ⟨_, _, hcuts⟩
          case h_2 =>
              obtain ⟨news, hcuts, -⟩ := exists_cuts_removeStatement hforest hlink
              exact .inr ⟨rfl, hforks (.inl hkind), news, none, hcuts⟩
  case h_2 hkind =>
      obtain ⟨parent, hlink⟩ := hparent (by simp [hkind])
      rw [decideConditional, Edit.gives_bind, Edit.gives_get]
      split
      case h_1 hnone =>
          refine .inl ⟨rfl, rfl, by simp [hkind], fun _ c hc => ?_, by simp [hkind]⟩
          rwa [hc] at hnone
      case h_2 value htruth =>
          split
          case h_1 hmissing =>
              -- A conditional expression has both branches.
              have hfilled := (hs.ample.filled hlink).parts hkind
              rw [nth?, List.getElem?_eq_none_iff] at hmissing
              split at hmissing <;> omega
          case h_2 branch hbranch =>
              exact .inr ⟨rfl, hforks (.inr (.inl hkind)), _, _,
                cuts_replace hforest hlink (mem_of_nth? hbranch)⟩
  case h_3 hkind =>
      obtain ⟨parent, hlink⟩ := hparent (by simp [hkind])
      cases hchoice : choice? s id with
      | none =>
          have hunchanged := run_decideSwitch_unknown hchoice
          exact .inl ⟨hunchanged, run_decideSwitch_false hunchanged, by simp [hkind],
            by simp [hkind], fun _ => hchoice⟩
      | some choice =>
          obtain ⟨value, literal, -, -, hsettled, hbody⟩ := of_choice? hchoice
          refine .inr ⟨run_decideSwitch_of_choice hchoice, hforks (.inr (.inr hkind)), ?_⟩
          cases hentry : entryOf? s id value with
          | none =>
              rw [hentry] at hbody
              obtain ⟨news, hcuts, -⟩ := exists_cuts_removeStatement hforest hlink
              rw [run_decideSwitch_none hchoice hbody]
              exact ⟨news, none, hcuts⟩
          | some clause =>
              have hmem := mem_clausesOf_of_entryOf? hentry
              obtain ⟨body, hstatements, hends, -⟩ := (hsettled clause hmem).closed
              obtain ⟨last, hlast, hbreak⟩ := (Option.any_eq_true _ _).mp hends
              rw [hentry, Option.bind_some, hstatements] at hbody
              rw [run_decideSwitch_some hchoice hbody hlast]
              rcases (cuts_clause hs.sound hs.ordered hlink (List.mem_filter.mp hmem).1 hstatements
                hlast hbreak).2 with hcuts | hcuts
              · exact ⟨_, _, hcuts⟩
              · exact ⟨_, _, hcuts⟩
  case h_4 hif hconditional hswitch =>
      exact .inl ⟨rfl, rfl, undecided_of_kind hif hconditional hswitch⟩

/-- All nodes but the given ones are undecided. -/
structure Decides (rest : List NodeId) (s : Store) : Prop where
  supplied : s.Supplied
  pending : Pending s rest
  undecided : ∀ x, s.Within x s.root → x ∉ rest → s.Undecided x

/-- What deciding a node leads to. -/
theorem Decides.step {rest : List NodeId} (h : Decides (id :: rest) s) :
    Edit.Gives (decideNode id) s fun changed s' => Decides rest s' ∧
      (changed = false ∧ s' = s ∨ changed = true ∧ s'.forks < s.forks) := by
  have hforest := h.supplied.ordered.toForest
  have hid := h.pending.reached id List.mem_cons_self
  refine ((gives_decideNode_or h.supplied hid).and (supplied_decideNode h.supplied)).mono ?_
  rintro changed s' ⟨⟨rfl, rfl, hundecided⟩ | ⟨rfl, hforks, news, lost, hcuts⟩, hs'⟩
  · refine ⟨⟨h.supplied, h.pending.step hforest (.refl hforest id), fun x hx hrest => ?_⟩,
      .inl ⟨rfl, rfl⟩⟩
    by_cases heq : x = id
    · exact heq ▸ hundecided
    · exact h.undecided x hx (by simp [heq, hrest])
  · refine ⟨⟨hs', h.pending.step hforest hcuts.isLocal, fun x hx hrest => ?_⟩,
      .inr ⟨rfl, hcuts.forks_lt hid hforks⟩⟩
    refine hcuts.undecided hx fun hroot hstays => ?_
    have hne : x ≠ id := by
      rintro rfl
      rcases hstays with hout | ⟨n, hn, hin⟩
      · exact hout .refl
      · have hbelow := hcuts.below n hn (hforest.within_lt (hforest.lt_of_reached hroot) hin)
        exact hbelow.2 (hforest.eq_of_within hbelow.1 hin)
    have hnot : x ∉ id :: rest := by simp [hne, hrest]
    exact ⟨fun habove => hnot (h.pending.mem_of_within List.mem_cons_self habove),
      h.undecided x hroot hnot⟩

end Branches

variable {s : Store}

/-- The removal of dead branches decides what there is to decide, and if that was anything, there are
fewer nodes at which there could be. -/
theorem gives_removeDeadBranches (hs : s.Supplied) :
    Edit.Gives removeDeadBranches s fun changed s' =>
      (s'.Supplied ∧ ∀ x, s'.Within x s'.root → s'.Undecided x) ∧
        (changed = false ∧ s' = s ∨ changed = true ∧ s'.forks < s.forks) := by
  have hforest := hs.ordered.toForest
  have hstart : Decides (s.postorder s.root) s :=
    ⟨hs, hforest.pending_postorder, fun x hx hnot => absurd (hforest.mem_postorder.mpr hx) hnot⟩
  rw [removeDeadBranches, Edit.gives_bind, Edit.gives_get]
  refine (Edit.gives_sweep_changed (R := fun s changed s' =>
    changed = false ∧ s' = s ∨ changed = true ∧ s'.forks < s.forks) hstart
    (fun _ _ => .inl ⟨rfl, rfl⟩) ?_ fun _ _ _ h => h.step).mono fun changed s' hs' => ?_
  · rintro s a s' b s'' (⟨rfl, rfl⟩ | ⟨rfl, hlt⟩) (⟨rfl, rfl⟩ | ⟨rfl, hlt'⟩)
    · exact .inl ⟨rfl, rfl⟩
    · exact .inr ⟨rfl, hlt'⟩
    · exact .inr ⟨rfl, hlt⟩
    · exact .inr ⟨rfl, hlt'.trans hlt⟩
  · exact ⟨⟨hs'.1.supplied, fun x hx => hs'.1.undecided x hx List.not_mem_nil⟩, hs'.2⟩

/-- Where there is nothing to decide the removal of dead branches does nothing. -/
theorem run_removeDeadBranches_of_undecided (hs : s.Forest)
    (h : ∀ x, s.Within x s.root → s.Undecided x) : removeDeadBranches.run s = (false, s) := by
  have hsweep : ∀ items : List NodeId, (∀ x ∈ items, s.Undecided x) →
      (sweep Branches.decideNode items).run s = (false, s) := by
    intro items hitems
    induction items with
    | nil => rfl
    | cons x rest ih =>
        rw [List.forall_mem_cons] at hitems
        have hgives : Edit.Gives (sweep Branches.decideNode (x :: rest)) s fun changed s' =>
            changed = false ∧ s' = s := by
          rw [sweep, Edit.gives_bind, Edit.Gives, Branches.run_decideNode_of_undecided hitems.1,
            Edit.gives_bind, Edit.Gives, ih hitems.2]
          exact ⟨rfl, rfl⟩
        exact Prod.ext hgives.1 hgives.2
  exact hsweep _ fun x hx => h x (hs.mem_postorder.mp hx)

/-- The removal of dead branches settles at once. Whatever passes have run on a script before, no
condition of the tree is known afterwards and no clause of a `switch` can be chosen, so that another
removal changes nothing and says so; and the first one says that it changed something if and only if
the tree is another one. -/
theorem removeDeadBranches_settles {source : String} {line : Nat} {t : Tree}
    (hparse : parseScript source line = .ok t) (transforms : List Transform) :
    let s := transforms.foldl Transform.run (.ofTree t)
    let s' := (removeDeadBranches.run s).2
    (∀ x, s'.Within x s'.root → s'.Undecided x) ∧
      removeDeadBranches.run s' = (false, s') ∧
      ((removeDeadBranches.run s).1 = true ↔ s'.view s'.root ≠ s.view s.root) := by
  intro s s'
  have hs : s.Supplied := supplied_of_parseScript hparse transforms
  obtain ⟨⟨hs', hundecided⟩, hchanged⟩ := gives_removeDeadBranches hs
  refine ⟨hundecided, run_removeDeadBranches_of_undecided hs'.ordered.toForest hundecided, ?_⟩
  rcases hchanged with ⟨hfalse, hsame⟩ | ⟨htrue, hlt⟩
  · refine iff_of_false (by simp [hfalse]) (not_not_intro ?_)
    exact congrArg (fun s : Store => s.view s.root) hsame
  · exact iff_of_true htrue fun heq => hlt.ne (congrArg (Tree.weight Head.forks) heq)

/-- An `if` whose condition is decided only when a part of it is, in a clause of a `switch`. -/
def nestedDecisions : String := "switch(1){case 1:if(true?false:a)b();else{c()}break}"

theorem removeDeadBranches_settles_nestedDecisions :
    ∃ t, parseScript nestedDecisions 1 = .ok t ∧
      let s := Store.ofTree t
      let s' := (removeDeadBranches.run s).2
      (removeDeadBranches.run s).1 = true ∧
      (∀ x, s'.Within x s'.root → s'.Undecided x) ∧
      removeDeadBranches.run s' = (false, s') ∧
      ((removeDeadBranches.run s).1 = true ↔ s'.view s'.root ≠ s.view s.root) := by
  have hparse : parseScript nestedDecisions 1 = .ok (treeOf nestedDecisions) :=
    parseScript_treeOf (by decide +kernel)
  exact ⟨_, hparse, by decide +kernel, removeDeadBranches_settles hparse []⟩

end ScriptMin
