import ScriptMin.Proofs.Pass.Evaluation
import ScriptMin.Proofs.Store.Taking
import ScriptMin.Proofs.Tree.Switches

/-!
The removal of dead branches follows execution. What is known of a condition holds whatever the
truth of its unknown parts is. What is left of a `switch` that is decided are the statements of the
clause that its value selects, without the `break` at their end, and they run like the `switch`.
-/

namespace ScriptMin

open Store ScriptMin.Tree

namespace Branches

variable {s : Store} {id parent switch value clause body x found : NodeId}
  {choice choice' : Choice} {clauses : List NodeId} {literal : Literal}

/-! ### Breaks -/

theorem contains_breakTargets (kind : Kind) : breakTargets.contains kind = kind.holdsBreaks := by
  cases kind <;> rfl

theorem isPlainBreak_iff : isPlainBreak s id = true ↔ (s.view id).IsPlainBreak := by
  rw [isPlainBreak, Bool.and_eq_true, beq_iff_eq, Option.isNone_iff_eq_none]
  constructor
  · exact fun h => ⟨(kind_view id).trans h.1, by rw [head_view]; exact h.2⟩
  · intro h
    have htext := h.text
    rw [head_view] at htext
    exact ⟨(kind_view id).symm.trans h.kind, htext⟩

/-- The target of a `break` that stands loose in a node is the nearest one above the node. -/
theorem exists_nearest_of_breaksLoose (hs : s.Forest) (hloose : (s.view x).breaksLoose = true)
    (hlink : s.parent? x = some parent) (hnear : s.Nearest breakTargets parent found) :
    ∃ y, s.Within y x ∧ isPlainBreak s y = true ∧ s.Nearest breakTargets y found := by
  induction x using hs.descend generalizing parent with
  | step x ih =>
      rcases breaksLoose_iff.mp hloose with hbreak | ⟨hopen, c, hc, hcloose⟩
      · refine ⟨x, .refl, isPlainBreak_iff.mpr hbreak, .above ?_ hlink hnear⟩
        rw [contains_breakTargets, ← kind_view, hbreak.kind]
        rfl
      · rw [hs.children_view] at hc
        obtain ⟨y, hy, rfl⟩ := List.mem_map.mp hc
        have hnear' : s.Nearest breakTargets x found := by
          refine .above ?_ hlink hnear
          rwa [contains_breakTargets, ← kind_view]
        have hylink := hs.parent?_of_mem hy
        obtain ⟨z, hz, hbreak, hfound⟩ := ih y hy hcloose hylink hnear'
        exact ⟨z, hz.trans (within_of_parent hylink), hbreak, hfound⟩

/-- Where a `break` stands loose in a statement of a clause, it leaves the `switch`. -/
theorem breaksEarly_of_breaksLoose (hs : s.Forest) (hkind : s.kind switch = .switchCase)
    (hclause : clause ∈ s.children switch) (hopen : (s.kind clause).holdsBreaks = false)
    (hbody : s.child? clause .statements = some body) (hblock : s.kind body = .block)
    (hx : x ∈ (s.children body).dropLast) (hloose : (s.view x).breaksLoose = true) :
    breaksEarly s switch body = true := by
  have hswitch : s.Nearest breakTargets switch switch := .here (by rw [hkind]; rfl)
  have hbodyNear : s.Nearest breakTargets body switch := by
    refine .above (by rw [hblock]; rfl) (hs.parent?_of_mem (mem_of_child? hbody)) ?_
    exact .above (by rwa [contains_breakTargets]) (hs.parent?_of_mem hclause) hswitch
  obtain ⟨y, hy, hbreak, hnear⟩ := exists_nearest_of_breaksLoose hs hloose
    (hs.parent?_of_mem (List.mem_of_mem_dropLast hx)) hbodyNear
  refine List.any_eq_true.mpr ⟨x, hx, List.any_eq_true.mpr ⟨y, hs.mem_descendants hy, ?_⟩⟩
  rw [hbreak, hs.ancestor?_eq_some hnear]
  exact beq_self_eq_true _

/-! ### The choice of a clause -/

/-- Whether a clause has a label that is known to equal the value of a `switch`. -/
def matchesValue (s : Store) (value clause : NodeId) : Bool :=
  s.kind clause != .defaultClause &&
    (s.child? clause .label).any fun l => (s.view value).literalsEqual? (s.view l) == some true

/-- A clause does not stand in the way of deciding the `switch`. -/
structure Settled (s : Store) (switch clause : NodeId) : Prop where
  closed : ∃ body, s.child? clause .statements = some body ∧ endsInBreak s body = true ∧
    breaksEarly s switch body = false
  label : s.kind clause ≠ .defaultClause →
    ∃ l, s.child? clause .label = some l ∧ (s.kind l).isLiteral

theorem isLiteral_of_literal? {t : Tree} (h : t.literal? = some literal) : t.kind.isLiteral := by
  rw [literal?] at h
  cases hkind : t.kind <;> rw [hkind] at h <;> first | rfl | cases h

/-- What a clause adds to the choice. -/
theorem of_consider (h : consider s switch value choice clause = some choice') :
    Settled s switch clause ∧
      choice'.chosen = (choice.chosen <|> if matchesValue s value clause then
        s.child? clause .statements else none) ∧
      choice'.fallback = if s.kind clause = .defaultClause then s.child? clause .statements
        else choice.fallback := by
  simp only [consider, Option.bind_eq_bind, Option.bind_eq_some_iff] at h
  obtain ⟨body, hbody, _, hguard, hrest⟩ := h
  have hends := (Option.guard_eq_some' _).mp hguard
  rw [Bool.and_eq_true, Bool.not_eq_true'] at hends
  have hclosed : ∃ body, s.child? clause .statements = some body ∧ endsInBreak s body = true ∧
      breaksEarly s switch body = false := ⟨body, hbody, hends⟩
  have hnone : ∀ o : Option NodeId, (o <|> none) = o := fun o => by cases o <;> rfl
  split at hrest
  case isTrue hdefault =>
      obtain rfl : _ = choice' := Option.some_inj.mp hrest
      refine ⟨⟨hclosed, fun hne => absurd hdefault hne⟩, ?_, ?_⟩
      · rw [matchesValue, hdefault]
        exact (hnone _).symm
      · rw [if_pos hdefault, hbody]
  case isFalse hcase =>
      rw [Option.bind_eq_some_iff] at hrest
      obtain ⟨label, hlabel, hrest⟩ := hrest
      have hmatches : matchesValue s value clause =
          ((s.view value).literalsEqual? (s.view label) == some true) := by
        rw [matchesValue, hlabel, Option.any_some, bne_iff_ne.mpr hcase, Bool.true_and]
      have hliteral : ∀ {b}, (s.view value).literalsEqual? (s.view label) = some b →
          (s.kind label).isLiteral := by
        intro b hb
        obtain ⟨_, _, -, hvalue, -⟩ := equal?_of_literalsEqual? hb
        rw [← kind_view]
        exact isLiteral_of_literal? hvalue
      rw [hmatches, if_neg hcase]
      split at hrest
      case h_1 hequal =>
          obtain rfl : _ = choice' := Option.some_inj.mp hrest
          refine ⟨⟨hclosed, fun _ => ⟨label, hlabel, hliteral hequal⟩⟩, ?_, rfl⟩
          rw [hequal, hbody]
          rfl
      case h_2 hequal =>
          obtain rfl : _ = choice' := Option.some_inj.mp hrest
          refine ⟨⟨hclosed, fun _ => ⟨label, hlabel, hliteral hequal⟩⟩, ?_, rfl⟩
          rw [hequal]
          exact (hnone _).symm
      case h_3 hequal =>
          rw [Option.bind_eq_some_iff] at hrest
          obtain ⟨_, hguard, hrest⟩ := hrest
          obtain rfl : _ = choice' := Option.some_inj.mp hrest
          refine ⟨⟨hclosed, fun _ => ⟨label, hlabel, (Option.guard_eq_some' _).mp hguard⟩⟩, ?_, rfl⟩
          rw [hequal]
          exact (hnone _).symm

/-- The choice is the first clause that matches, and the last default clause. -/
theorem of_foldlM_consider (h : clauses.foldlM (consider s switch value) choice = some choice') :
    (∀ c ∈ clauses, Settled s switch c) ∧
      choice'.chosen = (choice.chosen <|>
        (clauses.find? (matchesValue s value)).bind (s.child? · .statements)) ∧
      choice'.fallback = match (clauses.filter (s.kind · == .defaultClause)).getLast? with
        | some c => s.child? c .statements
        | none => choice.fallback := by
  induction clauses generalizing choice with
  | nil =>
      obtain rfl := Option.some_inj.mp h
      refine ⟨nofun, ?_, rfl⟩
      cases choice.chosen <;> rfl
  | cons clause rest ih =>
      rw [List.foldlM_cons, Option.bind_eq_bind, Option.bind_eq_some_iff] at h
      obtain ⟨next, hnext, hrest⟩ := h
      obtain ⟨hsettled, hchosen, hfallback⟩ := of_consider hnext
      obtain ⟨hall, hchosen', hfallback'⟩ := ih hrest
      obtain ⟨body, hbody, -⟩ := hsettled.closed
      refine ⟨List.forall_mem_cons.mpr ⟨hsettled, hall⟩, ?_, ?_⟩
      · rw [hchosen', hchosen, List.find?_cons]
        cases matchesValue s value clause with
        | true => rw [if_pos rfl, Option.bind_some, hbody]; cases choice.chosen <;> rfl
        | false => cases choice.chosen <;> rfl
      · rw [hfallback', hfallback, List.filter_cons]
        by_cases hdefault : s.kind clause = .defaultClause
        · rw [if_pos (beq_iff_eq.mpr hdefault), if_pos hdefault]
          cases List.filter _ rest with
          | nil => rfl
          | cons c cs =>
              rw [List.getLast?_cons_cons, List.getLast?_eq_some_getLast (List.cons_ne_nil c cs)]
        · rw [if_neg hdefault, if_neg (by simpa using hdefault)]

/-! ### Views of switches -/

def clausesOf (s : Store) (switch : NodeId) : List NodeId :=
  (s.children switch).filter fun c => s.kind c matches .caseClause | .defaultClause

theorem clauses_view (hs : s.Forest) :
    (s.view switch).clauses = (clausesOf s switch).map s.view := by
  rw [Tree.clauses, hs.children_view, clausesOf, List.filter_map]
  congr 2
  funext c
  exact congrArg (fun kind : Kind => kind matches .caseClause | .defaultClause) (kind_view c)

theorem isDefault_view : (s.view clause).isDefault = (s.kind clause == .defaultClause) := by
  rw [isDefault, kind_view]

theorem clauseStatements_view (hs : s.Forest) (hbody : s.child? clause .statements = some body) :
    (s.view clause).clauseStatements = (s.children body).map s.view := by
  rw [clauseStatements, hs.child?_view, hbody, Option.map_some, Option.map_some, Option.getD_some,
    hs.children_view]

theorem isChosenBy_view (hs : s.Forest) (hliteral : (s.view value).literal? = some literal) :
    (s.view clause).isChosenBy literal = matchesValue s value clause := by
  rw [isChosenBy, matchesValue, isDefault_view, hs.child?_view]
  congr 1
  cases s.child? clause .label with
  | none => rfl
  | some label =>
      rw [Option.map_some, Option.bind_some, Option.any_some, Bool.eq_iff_iff, beq_iff_eq]
      constructor
      · intro h
        obtain ⟨other, hother, hequal⟩ := (Option.any_eq_true _ _).mp h
        exact (literalsEqual?_eq_some_true hliteral hother).mpr hequal
      · intro h
        obtain ⟨_, other, -, hother, -⟩ := equal?_of_literalsEqual? h
        rw [hother, Option.any_some]
        exact (literalsEqual?_eq_some_true hliteral hother).mp h

def entryOf? (s : Store) (switch value : NodeId) : Option NodeId :=
  (clausesOf s switch).find? (matchesValue s value) <|>
    ((clausesOf s switch).filter (s.kind · == .defaultClause)).getLast?

theorem mem_clausesOf_of_entryOf? (h : entryOf? s switch value = some clause) :
    clause ∈ clausesOf s switch := by
  rw [entryOf?] at h
  cases hfound : (clausesOf s switch).find? (matchesValue s value) with
  | none =>
      rw [hfound] at h
      exact (List.mem_filter.mp (List.mem_of_getLast? h)).1
  | some found =>
      rw [hfound] at h
      exact Option.some_inj.mp h ▸ List.mem_of_find?_eq_some hfound

theorem selected?_view (hs : s.Forest) (hliteral : (s.view value).literal? = some literal) :
    (s.view switch).selected? literal = (entryOf? s switch value).map s.view := by
  rw [selected?, clauses_view hs, List.find?_map, List.filter_map, List.getLast?_map, entryOf?]
  have hchosen : (isChosenBy literal ∘ s.view) = matchesValue s value :=
    funext fun c => isChosenBy_view hs hliteral
  have hdefault : (isDefault ∘ s.view) = fun c => s.kind c == .defaultClause :=
    funext fun c => isDefault_view
  rw [hchosen, hdefault]
  cases (clausesOf s switch).find? (matchesValue s value) <;> rfl

/-- What is chosen in a `switch` that can be decided are the statements of the clause that it
enters. -/
theorem of_choice? (h : choice? s switch = some choice) :
    ∃ value literal, s.child? switch .discriminant = some value ∧
      (s.view value).literal? = some literal ∧
      (∀ c ∈ clausesOf s switch, Settled s switch c) ∧
      (choice.chosen <|> choice.fallback) =
        (entryOf? s switch value).bind (s.child? · .statements) := by
  simp only [choice?, Option.bind_eq_bind, Option.bind_eq_some_iff] at h
  obtain ⟨value, hvalue, _, hguard, hfold⟩ := h
  have hkind := (Option.guard_eq_some' _).mp hguard
  have hliteral : ((s.view value).literal?).isSome := by
    rw [literal?, kind_view]
    cases hcase : s.kind value <;> rw [hcase] at hkind <;> first | rfl | cases hkind
  obtain ⟨literal, hliteral⟩ := Option.isSome_iff_exists.mp hliteral
  obtain ⟨hsettled, hchosen, hfallback⟩ := of_foldlM_consider hfold
  refine ⟨value, literal, hvalue, hliteral, hsettled, ?_⟩
  rw [hchosen, hfallback, entryOf?, clausesOf]
  cases hfound : (List.filter _ _).find? (matchesValue s value) with
  | none => cases (List.filter _ (List.filter _ _)).getLast? <;> rfl
  | some c =>
      obtain ⟨body, hbody, -⟩ := (hsettled c (List.mem_of_find?_eq_some hfound)).closed
      rw [Option.bind_some, hbody]
      exact hbody.symm

/-- The clauses of a `switch` that can be decided are closed. -/
theorem isClosed_view (hs : s.Forest) (hsound : s.Sound) (hkind : s.kind switch = .switchCase)
    (hclause : clause ∈ clausesOf s switch) (h : Settled s switch clause) :
    (s.view clause).IsClosed := by
  obtain ⟨body, hbody, hends, hearly⟩ := h.closed
  obtain ⟨hmem, hclauseKind⟩ := List.mem_filter.mp hclause
  have hopen : (s.kind clause).holdsBreaks = false := by
    split at hclauseKind
    · rw [‹s.kind clause = _›]
      rfl
    · rw [‹s.kind clause = _›]
      rfl
    · cases hclauseKind
  have hblock := (hsound.formed body).complete.statements (role?_of_child? hbody)
  refine ⟨?_, ?_⟩
  · obtain ⟨last, hlast, hbreak⟩ := (Option.any_eq_true _ _).mp hends
    rw [clauseStatements_view hs hbody, List.getLast?_map, hlast]
    exact ⟨_, rfl, isPlainBreak_iff.mp hbreak⟩
  · rw [clauseStatements_view hs hbody, ← List.map_dropLast]
    refine List.forall_mem_map.mpr fun x hx => ?_
    cases hloose : (s.view x).breaksLoose with
    | false => rfl
    | true =>
        rw [breaksEarly_of_breaksLoose hs hkind hmem hopen hbody hblock hx hloose] at hearly
        cases hearly

end Branches

/-! ### Deciding a switch -/

/-- How statements stand where they take the place of another one: on their own or in one block. If
there are none, an empty statement can stand there. -/
inductive Tree.Stand (kept : List Tree) : List Tree → Prop where
  | spliced : Stand kept kept
  | block {head : Head} (kind : head.kind = .block) : Stand kept [.node head kept]
  | empty {head : Head} (nothing : kept = []) (kind : head.kind = .semicolon) :
      Stand kept [.node head []]

/-- What a `switch` over a value comes down to once it is decided: the statements of the clause that
the value selects, without the `break` at their end. They stand in the place of the `switch`, and
they run like it in every world. -/
structure Tree.Decided (t : Tree) (value : Literal) (news : List Tree) : Prop where
  discriminant : ∃ d, t.child? .discriminant = some d ∧ d.literal? = some value
  stand : Stand (t.entryStatements value) news
  ends : ∀ c, t.selected? value = some c →
    ∃ last, last.IsPlainBreak ∧ c.clauseStatements = t.entryStatements value ++ [last]
  runs : ∀ (W : World) (labels : List String) (σ σ' : W.State) (e : Ending W.Exit),
    W.Runs (.statement labels t) σ e σ' ↔ W.Runs (.sequence (t.entryStatements value)) σ e σ'

namespace Branches

variable {s : Store} {id parent : NodeId}

theorem dropLast_eq_filter {ids : List NodeId} {last : NodeId} (hnodup : ids.Nodup)
    (hlast : ids.getLast? = some last) : ids.filter (· ≠ last) = ids.dropLast := by
  obtain ⟨front, rfl⟩ := List.getLast?_eq_some_iff.mp hlast
  have hnot : last ∉ front := fun hmem =>
    List.disjoint_of_nodup_append hnodup hmem (List.mem_singleton_self last)
  rw [List.dropLast_concat, List.filter_append, List.filter_eq_self.mpr]
  · simp
  · intro x hx
    refine decide_eq_true ?_
    rintro rfl
    exact hnot hx

/-- The statements of a clause take the place of the `switch`, without the `break` at their end. -/
theorem puts_clause {clause body last : NodeId} (hs : s.Forest) (hlink : s.parent? id = some parent)
    (hclause : clause ∈ s.children id) (hbody : body ∈ s.children clause)
    (hblock : s.kind body = .block) (hlast : (s.children body).getLast? = some last) :
    let s' := ((s.remove last).setRole body none).replaceStatement id body
    ∃ news, Puts s s' id news ∧
      Stand (((s.children body).map s.view).dropLast) (news.map s'.view) := by
  have hclauseLink := hs.parent?_of_mem hclause
  have hbodyLink := hs.parent?_of_mem hbody
  have hwithin : s.Within body id := (within_of_parent hbodyLink).trans (within_of_parent hclauseLink)
  have hne : body ≠ id := hs.ne_of_within hclause (within_of_parent hbodyLink)
  have hready := Prepared.start_remove_below hs hlink hbodyLink hwithin hne
    (List.mem_of_getLast? hlast)
  rw [dropLast_eq_filter (hs.nodup body) hlast] at hready
  obtain ⟨news, hputs, hnews⟩ := (hready.setRole hne none).replaceStatement hne
  refine ⟨news, hputs, ?_⟩
  rw [← List.map_dropLast]
  rcases hnews with ⟨-, hnews⟩ | hnews
  · rw [hnews]
    exact .spliced
  · rw [hnews]
    exact .block hblock

theorem run_decideSwitch_unknown (hchoice : choice? s id = none) :
    ((decideSwitch id).run s).1 = false := by
  change Edit.Gives (decideSwitch id) s fun changed _ => changed = false
  rw [decideSwitch, Edit.gives_bind, Edit.gives_get, hchoice]
  rfl

theorem run_decideSwitch_none {choice : Choice} (hchoice : choice? s id = some choice)
    (hnone : (choice.chosen <|> choice.fallback) = none) :
    ((decideSwitch id).run s).2 = s.removeStatement id := by
  change Edit.Gives (decideSwitch id) s fun _ s' => s' = s.removeStatement id
  rw [decideSwitch, Edit.gives_bind, Edit.gives_get, hchoice]
  dsimp only
  rw [hnone]
  rfl

theorem run_decideSwitch_some {choice : Choice} {body last : NodeId}
    (hchoice : choice? s id = some choice)
    (hbody : (choice.chosen <|> choice.fallback) = some body)
    (hlast : (s.children body).getLast? = some last) :
    ((decideSwitch id).run s).2 = ((s.remove last).setRole body none).replaceStatement id body := by
  change Edit.Gives (decideSwitch id) s fun _ s' =>
    s' = ((s.remove last).setRole body none).replaceStatement id body
  rw [decideSwitch, Edit.gives_bind, Edit.gives_get, hchoice]
  dsimp only
  rw [hbody]
  dsimp only
  rw [hlast]
  rfl

/-- A `switch` that is decided comes down to the statements it runs. -/
theorem puts_decideSwitch (hs : s.Forest) (hsound : s.Sound) (hlink : s.parent? id = some parent)
    (hkind : s.kind id = .switchCase) (hchanged : ((decideSwitch id).run s).1 = true) :
    let s' := ((decideSwitch id).run s).2
    ∃ value news, Puts s s' id news ∧ (s.view id).Decided value (news.map s'.view) := by
  intro s'
  cases hchoice : choice? s id with
  | none =>
      rw [run_decideSwitch_unknown hchoice] at hchanged
      cases hchanged
  | some choice =>
      obtain ⟨value, literal, hvalue, hliteral, hsettled, hbody⟩ := of_choice? hchoice
      have hdiscriminant : (s.view id).child? .discriminant = some (s.view value) := by
        rw [hs.child?_view, hvalue, Option.map_some]
      have hclosed : ∀ c ∈ (s.view id).clauses, c.IsClosed := by
        rw [clauses_view hs]
        exact List.forall_mem_map.mpr fun c hc => isClosed_view hs hsound hkind hc (hsettled c hc)
      have hlabels : ∀ c ∈ (s.view id).clauses, c.isDefault = false →
          ∃ l, c.child? .label = some l ∧ l.kind.isLiteral := by
        rw [clauses_view hs]
        refine List.forall_mem_map.mpr fun c hc hcase => ?_
        rw [isDefault_view, beq_eq_false_iff_ne] at hcase
        obtain ⟨l, hl, hkind⟩ := (hsettled c hc).label hcase
        exact ⟨s.view l, by rw [hs.child?_view, hl, Option.map_some], by rwa [kind_view]⟩
      have hends : ∀ c, (s.view id).selected? literal = some c → ∃ last, last.IsPlainBreak ∧
          c.clauseStatements = (s.view id).entryStatements literal ++ [last] := by
        intro c hc
        obtain ⟨last, hlast, hbreak⟩ := (hclosed c (mem_clauses_of_selected? hc)).ends
        refine ⟨last, hbreak, ?_⟩
        rw [entryStatements, hc, Option.map_some, Option.getD_some,
          List.dropLast_append_getLast? last hlast]
      suffices hstands : ∃ news, Puts s s' id news ∧
          Stand ((s.view id).entryStatements literal) (news.map s'.view) by
        obtain ⟨news, hputs, hstands⟩ := hstands
        refine ⟨literal, news, hputs, ⟨_, hdiscriminant, hliteral⟩, hstands, hends, ?_⟩
        intro W labels σ σ' e
        exact World.runs_entryStatements_iff ((kind_view id).trans hkind) hdiscriminant hliteral
          hlabels hclosed
      rw [entryStatements, selected?_view hs hliteral]
      cases hentry : entryOf? s id value with
      | none =>
          -- No clause is entered, and the `switch` is taken away.
          rw [hentry] at hbody
          obtain ⟨news, hputs, hnews⟩ := hs.puts_removeStatement hlink
          rw [← run_decideSwitch_none hchoice hbody] at hputs hnews
          refine ⟨news, hputs, ?_⟩
          rcases hnews with rfl | ⟨head, hhead, hnews⟩
          · exact .spliced
          · rw [hnews]
            exact .empty rfl hhead
      | some clause =>
          have hmem := mem_clausesOf_of_entryOf? hentry
          obtain ⟨body, hstatements, hends, -⟩ := (hsettled clause hmem).closed
          obtain ⟨last, hlast, -⟩ := (Option.any_eq_true _ _).mp hends
          rw [hentry, Option.bind_some, hstatements] at hbody
          rw [Option.map_some, Option.map_some, Option.getD_some,
            clauseStatements_view hs hstatements,
            show s' = _ from run_decideSwitch_some hchoice hbody hlast]
          exact puts_clause hs hlink (List.mem_filter.mp hmem).1 (mem_of_child? hstatements)
            ((hsound.formed body).complete.statements (role?_of_child? hstatements)) hlast

end Branches

/-- The removal of dead branches follows execution. What is known of a condition is its truth,
whatever the truth of the parts is that are not looked into. And whatever passes have run on a
script, and whatever has been decided before: when a `switch` in the tree is decided, the statements
that its value selects take its place, and they run like the `switch`. -/
theorem deadBranches_follow_execution :
    (∀ (e : Tree) (value : Bool), e.truth? = some value → ∀ v, e.holds v = value) ∧
    ∀ {source : String} {line : Nat} {t : Tree}, parseScript source line = .ok t →
      ∀ (transforms : List Transform) (before : List NodeId) (id : NodeId),
      let s := ((sweep Branches.decideNode before).run
        (transforms.foldl Transform.run (.ofTree t))).2
      let s' := ((Branches.decideSwitch id).run s).2
      s.kind id = .switchCase → s.Within id s.root →
      ((Branches.decideSwitch id).run s).1 = true →
      ∃ value news, (s.view id).Rewrites news (s.view s.root) (s'.view s'.root) ∧
        (s.view id).Decided value news := by
  refine ⟨fun e value h v => holds_eq_of_truth? e v value h, ?_⟩
  intro source line t hparse transforms before id s s' hkind hwithin hchanged
  have hforest : s.Forest :=
    Edit.keepsForest_sweep (Transform.forest_foldl_run (forest_ofTree t) transforms)
      fun _ _ hs => Branches.keepsForest_decideNode hs
  have hsound : s.Sound :=
    Store.Evolves.sound (Edit.keeps_sweep (sound_of_parseScript hparse transforms)
      fun _ _ _ hs => Branches.keeps_decideNode hs.sound)
  have hroot : id ≠ s.root := hsound.ne_root_of_kind (by simp [hkind])
  obtain ⟨parent, hlink, -⟩ := hwithin.cases.resolve_left hroot
  obtain ⟨value, news, hputs, hdecided⟩ :=
    Branches.puts_decideSwitch hforest hsound hlink hkind hchanged
  refine ⟨value, news.map s'.view, ?_, hdecided⟩
  rw [show s'.root = s.root from hputs.root_eq]
  exact hputs.rewrites hforest hwithin hroot

/-- A name and the truth value that denies the condition. -/
def deniedCondition : Tree :=
  .ofList .and ⟨0, 8, 1⟩ [.identifier "x" ⟨0, 1, 1⟩, .leaf .falseLit ⟨3, 8, 1⟩]

/-- A `switch` whose default clause is not the last one. -/
def misplacedDefault : String :=
  "switch(2){case 1:f();break;default:g();break;case 2:for(;;)break;h();break;}"

theorem deadBranches_follow_execution_misplacedDefault :
    (deniedCondition.truth? = some false ∧ ∀ v, deniedCondition.holds v = false) ∧
    ∃ t, parseScript misplacedDefault 1 = .ok t ∧
    let s := ((sweep Branches.decideNode []).run (Store.ofTree t)).2
    let s' := ((Branches.decideSwitch 1).run s).2
    s.kind 1 = .switchCase ∧ s.Within 1 s.root ∧ ((Branches.decideSwitch 1).run s).1 = true ∧
    ∃ value news, (s.view 1).Rewrites news (s.view s.root) (s'.view s'.root) ∧
      (s.view 1).Decided value news := by
  have htruth : deniedCondition.truth? = some false := by decide +kernel
  refine ⟨⟨htruth, deadBranches_follow_execution.1 _ _ htruth⟩, ?_⟩
  -- The script is parsed once for all that is looked up.
  have hlookup : (parseScript misplacedDefault 1).toOption.isSome ∧
      let s := ((sweep Branches.decideNode []).run (Store.ofTree (treeOf misplacedDefault))).2
      s.kind 1 = .switchCase ∧ s.parent? 1 = some s.root ∧
        ((Branches.decideSwitch 1).run s).1 = true := by
    decide +kernel
  obtain ⟨hsome, hkind, hparent, hchanged⟩ := hlookup
  have hparse := parseScript_treeOf hsome
  refine ⟨_, hparse, ?_⟩
  intro s s'
  have hwithin : s.Within 1 s.root := Store.within_of_parent hparent
  exact ⟨hkind, hwithin, hchanged,
    deadBranches_follow_execution.2 hparse [] [] 1 hkind hwithin hchanged⟩

end ScriptMin
