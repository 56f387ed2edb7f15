import ScriptMin.Proofs.Pass.Jumps
import ScriptMin.Proofs.Pass.Resolving

/-!
Code that the removal of dead branches discards. A decision changes none of the values that agree
with the script, so that what is not needed afterwards was not needed before. Main statement: an
effect that is gone once all nodes have been decided was in a part that is not taken, or in an
operand that makes no difference to a condition.
-/

namespace ScriptMin

open Store Branches

namespace Objects

variable (O : Objects) {head head' : Head} {ds : List (Datum O.Object)}

/-- How a value depends on operands shows in the head, apart from where it stands. -/
theorem result?_bare : O.result? head.bare ds = O.result? head ds := by
  rw [result?.eq_def, result?.eq_def]
  rfl

theorem result?_congr (h : head'.bare = head.bare) : O.result? head' ds = O.result? head ds := by
  rw [← result?_bare, h, result?_bare]

/-- Nothing is known of the value of what is no operation. -/
theorem result?_of_not_isOperation (h : head.kind.isOperation = false) : O.result? head ds = none := by
  rw [result?.eq_def]
  split
  case h_10 =>
      rw [Tree.literal?]
      cases hkind : head.kind <;> rw [hkind] at h <;>
        first | rw [show (Tree.node head []).kind = _ from hkind]; rfl | cases h
  all_goals
    rename_i hkind
    rw [hkind] at h
    cases h

end Objects

/-- A condition is an expression. -/
theorem Store.Ordered.isExpression_of_condition? {s : Store} {x c : NodeId} (hs : s.Ordered)
    (hc : s.condition? x = some c) : (s.head c).isExpression := by
  have hmem := mem_of_condition? hc
  have hadmits := hs.admits (hs.toForest.parent?_of_mem hmem)
  rw [condition?] at hc
  split at hc
  case h_1 => exact hadmits.role _ (role?_of_child? hc) rfl
  case h_2 hkind => exact hadmits.operand (by rw [show (s.head x).kind = _ from hkind]; rfl)
  case h_3 => cases hc

theorem Kind.isClause_iff {kind : Kind} :
    (kind matches .caseClause | .defaultClause) = true ↔
      kind = .caseClause ∨ kind = .defaultClause := by
  cases kind <;> simp

theorem Store.isStatementList_of_branch? {s : Store} {x c : NodeId} {b : Bool}
    (h : s.branch? x b = some c) : (s.kind x).isStatementList = false := by
  rw [branch?] at h
  cases hkind : s.kind x <;> rw [hkind] at h <;> first | rfl | cases h

theorem Store.EndsInBreak.kind_ne_semicolon {s : Store} {x : NodeId} (h : s.EndsInBreak x) :
    s.kind x ≠ .semicolon := by
  intro hkind
  cases h with
  | here hbreak => simp [← kind_view, hbreak.kind] at hkind
  | block hblock => simp [hblock] at hkind
  | branch hif => simp [hif] at hkind

namespace Store.Resolves

variable {s s' : Store} {id x c p : NodeId} {news : List NodeId} {lost : Option NodeId}
  {v : Valuation} {b : Bool}

section

variable (h : Resolves s s' id news lost)

include h

/-- The expressions that are decided are conditional ones. -/
theorem kind_of_isExpression (hid : (s.head id).isExpression) : s.kind id = .conditional := by
  rcases h.kind_mem with hkind | hkind | hkind
  · exact hkind
  all_goals
    rw [Head.isExpression, show (s.head id).kind = s.kind id from rfl, hkind] at hid
    cases hid

/-- What takes the place of an expression has its value. -/
theorem value_heir (hv : v.Agrees s) (hc : (s.head c).isExpression) :
    v.value (heir id news c) = v.value c := by
  rw [heir]
  split
  case isFalse => rfl
  case isTrue heq =>
      subst heq
      have hkind := h.kind_of_isExpression hc
      obtain ⟨_, _, n, rfl, -, -, -, hvalue⟩ := h.choice hkind
      exact hvalue v hv

variable (hs : s.Ordered)

include hs

/-- Values that agree with the script still do so after a decision. -/
theorem agrees (hv : v.Agrees s) : v.Agrees s' := by
  intro x hx d hd
  by_cases hop : (s'.kind x).isOperation
  case neg =>
      rw [v.result?_of_not_isOperation (Bool.eq_false_iff.mpr hop)] at hd
      cases hd
  case pos =>
      obtain ⟨hlt, hroot, hstays⟩ := h.old_of_attached hx (.inl (by
        rintro hkind
        rw [hkind] at hop
        cases hop))
      rw [h.kind_eq hlt] at hop
      have hlist : (s.kind x).isStatementList = false := by
        revert hop
        cases s.kind x <;> first | exact fun _ => rfl | exact nofun
      refine hv x hroot d ?_
      rw [v.result?_congr (h.bare_eq x hlt), h.children_heir hlt hstays hlist, List.map_map] at hd
      rw [← hd]
      congr 1
      refine List.map_congr_left fun c hc => (h.value_heir hv ?_).symm
      exact (hs.admits (hs.parent?_of_mem hc)).operand hop

/-- A condition that is determined afterwards was so before. -/
theorem determined (hc : (s.head c).isExpression) (hdet : s'.Determined (heir id news c) b) :
    s.Determined c b := by
  intro v hv
  have hholds := hdet v (h.agrees hs hv)
  rwa [Valuation.holds, h.value_heir hv hc] at hholds

end

/-! ### Parts -/

section

variable (h : Resolves s s' id news lost) (hx : x < s.size) (hstays : s.Stays id news x)

include h hx hstays

theorem condition?_heir : s'.condition? x = (s.condition? x).map (heir id news) := by
  simp only [condition?, h.kind_eq hx]
  split
  case h_1 hkind => exact h.child?_heir hx hstays (by rw [hkind]; rfl) _
  case h_2 hkind => exact h.nth?_heir hx hstays (by rw [hkind]; rfl) _
  case h_3 => rfl

theorem branch?_heir : s'.branch? x b = (s.branch? x b).map (heir id news) := by
  simp only [branch?, h.kind_eq hx]
  split
  case h_1 hkind => exact h.child?_heir hx hstays (by rw [hkind]; rfl) _
  case h_2 hkind => exact h.nth?_heir hx hstays (by rw [hkind]; rfl) _
  case h_3 => rfl

end

/-! ### What is not taken -/

section

variable (h : Resolves s s' id news lost) (hs : s.Ordered)

include h hs

/-- What is known of a condition afterwards is known of the one in its place before. -/
theorem determined_condition? (hx : x < s.size) (hstays : s.Stays id news x)
    (hc : s'.condition? x = some c) (hdet : s'.Determined c b) :
    ∃ c₀, s.condition? x = some c₀ ∧ c = heir id news c₀ ∧ s.Determined c₀ b := by
  rw [h.condition?_heir hx hstays, Option.map_eq_some_iff] at hc
  obtain ⟨c₀, hc₀, rfl⟩ := hc
  exact ⟨c₀, hc₀, rfl, h.determined hs (hs.isExpression_of_condition? hc₀) hdet⟩

omit hs in
theorem endsInBreak_of_heir (hlink : s.parent? c = some p) (hlist : (s.kind p).isStatementList = false)
    (hlt : heir id news c < s.size) (hapart : s.EndsApart lost (heir id news c)) :
    s.EndsInBreak c := by
  by_cases heq : c = id
  · subst heq
    obtain ⟨n, rfl, -⟩ := h.alone p hlink hlist
    rw [heir, if_pos rfl] at hlt hapart
    exact h.ends n List.mem_cons_self hlt hapart
  · rw [heir, if_neg heq] at hapart
    exact hapart.ends

/-- A statement that ends in a `break` afterwards did so before. -/
theorem endsApart (hends : s'.EndsInBreak x) (hroot : s'.Within x s'.root) :
    s.EndsApart lost x := by
  have hold : ∀ {y}, s'.EndsInBreak y → s'.Within y s'.root →
      y < s.size ∧ s.Within y s.root ∧ s.Stays id news y := by
    exact fun hy hyroot => h.old_of_attached hyroot (.inl hy.kind_ne_semicolon)
  have hother : ∀ {x}, s.kind x ≠ .block → ∀ y, lost = some y → s.parent? y = some x →
      ∃ c ∈ s.children x, c ≠ y ∧ s.EndsInBreak c := by
    intro x hx y hy hlink
    obtain ⟨-, -, q, hq, hblock⟩ := h.lost_below y hy
    obtain rfl := Option.some_inj.mp (hlink.symm.trans hq)
    exact absurd hblock hx
  have hbelow : ∀ {x c}, c ∈ s'.children x → s'.Within x s'.root → s'.Within c s'.root :=
    fun hc hx => (within_of_parent (h.forest.parent?_of_mem hc)).trans hx
  induction hends with
  | @here x hbreak =>
      obtain ⟨hlt, -, -⟩ := hold (.here hbreak) hroot
      have hkind := (h.kind_eq hlt).symm.trans ((kind_view x).symm.trans hbreak.kind)
      refine ⟨.here ⟨(kind_view x).trans hkind, ?_⟩, hother (by simp [hkind])⟩
      have htext := hbreak.text
      rw [head_view] at htext ⊢
      rwa [Head.text?_of_bare (h.bare_eq x hlt)] at htext
  | @block x c hblock hc hcends ih =>
      obtain ⟨hlt, -, hstays⟩ := hold (.block hblock hc hcends) hroot
      have hkind := (h.kind_eq hlt).symm.trans hblock
      have hcroot := hbelow hc hroot
      have hapart := ih hcroot
      rw [h.children_eq x hlt hstays, List.mem_flatMap] at hc
      obtain ⟨c₀, hc₀, hc⟩ := hc
      rcases Cuts.of_mem_instead hc with ⟨rfl, hnew⟩ | ⟨-, hkept, rfl⟩
      · have hid := h.ends c hnew (hold hcends hcroot).1 hapart
        refine ⟨.block hkind hc₀ hid, fun y hy _ => ⟨c₀, hc₀, ?_, hid⟩⟩
        exact fun heq => (h.lost_below y hy).2.1 heq.symm
      · refine ⟨.block hkind hc₀ hapart.ends, fun y hy _ => ⟨c, hc₀, ?_, hapart.ends⟩⟩
        exact fun heq => hkept (heq ▸ hy)
  | @branch x c y b hif hc hdet hy hyends ih =>
      obtain ⟨hlt, -, hstays⟩ := hold (.branch hif hc hdet hy hyends) hroot
      have hkind := (h.kind_eq hlt).symm.trans hif
      have hyroot := hbelow (mem_of_branch? hy) hroot
      have hapart := ih hyroot
      obtain ⟨c₀, hc₀, -, hdet₀⟩ := h.determined_condition? hs hlt hstays hc hdet
      rw [h.branch?_heir hlt hstays, Option.map_eq_some_iff] at hy
      obtain ⟨y₀, hy₀, rfl⟩ := hy
      refine ⟨.branch hkind hc₀ hdet₀ hy₀ ?_, hother (by simp [hkind])⟩
      exact h.endsInBreak_of_heir (hs.toForest.parent?_of_mem (mem_of_branch? hy₀))
        (by rw [hkind]; rfl) (hold hyends hyroot).1 hapart

/-- A clause stays where its `switch` does. -/
theorem clause_stays (hstays : s.Stays id news x) (hc : c ∈ clausesOf s x) :
    c < s.size ∧ s.Stays id news c ∧ (s.kind c).isStatementList = false := by
  obtain ⟨hmem, hmatches⟩ := List.mem_filter.mp hc
  have hclause := Kind.isClause_iff.mp hmatches
  have hlink := hs.toForest.parent?_of_mem hmem
  refine ⟨hs.toForest.child_lt hmem, hstays.of_parent hlink ?_, ?_⟩
  · rintro rfl
    rcases h.kind_mem with hid | hid | hid <;> simp [hid] at hclause
  · rcases hclause with hclause | hclause <;> rw [hclause] <;> rfl

/-- Clauses stay where they are. -/
theorem clausesOf_eq (hs' : s'.Ordered) (hseats : s.Seated) (hlt : x < s.size)
    (hroot : s.Within x s.root) (hstays : s.Stays id news x) (hkind : s.kind x = .switchCase) :
    clausesOf s' x = clausesOf s x := by
  have hlist : (s.kind x).isStatementList = false := by rw [hkind]; rfl
  have hnot : ¬ (s.kind id = .caseClause ∨ s.kind id = .defaultClause) := by
    rcases h.kind_mem with hid | hid | hid <;> simp [hid]
  have hrow := h.children_heir hlt hstays hlist
  -- What takes the place of the value is an expression.
  have hvalue : id ∈ s.children x → ¬ (s'.kind (heir id news id) = .caseClause ∨
      s'.kind (heir id news id) = .defaultClause) := by
    intro hid
    obtain ⟨i, hi⟩ := List.getElem?_of_mem hid
    obtain ⟨n, rfl, hrole⟩ := h.alone x (hs.toForest.parent?_of_mem hid) hlist
    have hdiscriminant : s.role? id = some .discriminant := by
      rcases hseats.seats_of_kind hroot hkind hi with ⟨-, hrole⟩ | ⟨-, hclause⟩
      · exact hrole
      · exact absurd hclause hnot
    rw [heir, if_pos rfl, List.headD_cons]
    have hmem : n ∈ s'.children x := by
      rw [hrow, List.mem_map]
      exact ⟨id, hid, if_pos rfl⟩
    have hexpression := (hs'.admits (hs'.toForest.parent?_of_mem hmem)).role _
      (hrole.trans hdiscriminant) rfl
    rw [Head.isExpression, show (s'.head n).kind = s'.kind n from rfl] at hexpression
    rintro (hclause | hclause) <;> rw [hclause] at hexpression <;> cases hexpression
  have hiff : ∀ c ∈ s.children x, (s'.kind (heir id news c) matches .caseClause | .defaultClause) =
      (s.kind c matches .caseClause | .defaultClause) := by
    intro c hc
    by_cases heq : c = id
    · subst heq
      rw [Bool.eq_iff_iff, Kind.isClause_iff, Kind.isClause_iff]
      exact iff_of_false (hvalue hc) hnot
    · rw [heir, if_neg heq, h.kind_eq (hs.toForest.child_lt hc)]
  rw [clausesOf, hrow, clausesOf, List.filter_map]
  refine (congrArg _ (List.filter_congr hiff)).trans ?_
  refine (List.map_congr_left fun c hc => ?_).trans (List.map_id _)
  refine if_neg fun heq => hnot ?_
  obtain ⟨-, hclause⟩ := List.mem_filter.mp hc
  rwa [heq, Kind.isClause_iff] at hclause

/-- The `switch` enters the same clause. -/
theorem entry?_eq (hs' : s'.Ordered) (hseats : s.Seated) (hlt : x < s.size)
    (hroot : s.Within x s.root) (hstays : s.Stays id news x) (hkind : s.kind x = .switchCase)
    (hv : v.Agrees s) : v.entry? s' x = v.entry? s x := by
  have hlist : (s.kind x).isStatementList = false := by rw [hkind]; rfl
  have hclauses := h.clausesOf_eq hs hs' hseats hlt hroot hstays hkind
  have hvalue : ∀ {y role d}, s.child? y role = some d → role.isExpression →
      v.value (heir id news d) = v.value d := by
    intro y role d hd hrole
    refine h.value_heir hv ?_
    exact (hs.admits (hs.toForest.parent?_of_mem (mem_of_child? hd))).role _ (role?_of_child? hd) hrole
  have hold := fun {c} => h.clause_stays hs hstays (c := c)
  rw [Valuation.entry?, Valuation.entry?, hclauses]
  congr 1
  · refine List.find?_congr fun c hc => ?_
    obtain ⟨hclt, hcstays, hclist⟩ := hold hc
    rw [h.kind_eq hclt, h.child?_heir hlt hstays hlist, h.child?_heir hclt hcstays hclist]
    congr 1
    cases hd : s.child? x .discriminant with
    | none => rfl
    | some d =>
        cases hl : s.child? c .label with
        | none => rfl
        | some l =>
            simp only [Option.map_some, Option.any_some, hvalue hd rfl, hvalue hl rfl]
  · funext _
    congr 1
    refine List.filter_congr fun c hc => ?_
    rw [h.kind_eq (hold hc).1]

/-- A part that is not taken afterwards was not taken before. -/
theorem untaken (hs' : s'.Ordered) (hseats : s.Seated) (hp : s'.Untaken p) (hx : s'.Within x p)
    (hlt : x < s.size) : ∃ q, s.Within x q ∧ s.Untaken q := by
  have hold : ∀ {y}, s'.Within y s'.root → s'.children y ≠ [] →
      y < s.size ∧ s.Within y s.root ∧ s.Stays id news y := fun hy hnil =>
    h.old_of_attached hy (.inr hnil)
  have hreached : ∀ {y c}, c ∈ s'.children y → s'.Within y s'.root → s'.Within c s'.root :=
    fun hc hy => (within_of_parent (h.forest.parent?_of_mem hc)).trans hy
  cases hp with
  | @branch y c p b hy hc hdet hbranch =>
      have hmem := mem_of_branch? hbranch
      obtain ⟨hylt, hyroot, hstays⟩ := hold hy (List.ne_nil_of_mem hmem)
      obtain ⟨c₀, hc₀, -, hdet₀⟩ := h.determined_condition? hs hylt hstays hc hdet
      rw [h.branch?_heir hylt hstays, Option.map_eq_some_iff] at hbranch
      obtain ⟨p₀, hp₀, rfl⟩ := hbranch
      refine ⟨p₀, ?_, .branch hyroot hc₀ hdet₀ hp₀⟩
      refine h.within_of_heir hstays ?_ (mem_of_branch? hp₀) (hreached hmem hy) hx hlt
      exact isStatementList_of_branch? hp₀
  | @operand y l p b hy hkind hl hdet hr =>
      have hmem := mem_of_nth? hr
      obtain ⟨hylt, hyroot, hstays⟩ := hold hy (List.ne_nil_of_mem hmem)
      rw [h.kind_eq hylt] at hkind
      have hlist : (s.kind y).isStatementList = false ∧ (s.kind y).isOperation := by
        obtain ⟨hkind, -⟩ | ⟨hkind, -⟩ := Kind.of_decisive? hkind <;> rw [hkind] <;> exact ⟨rfl, rfl⟩
      rw [h.nth?_heir hylt hstays hlist.1, Option.map_eq_some_iff] at hl hr
      obtain ⟨l₀, hl₀, rfl⟩ := hl
      obtain ⟨p₀, hp₀, rfl⟩ := hr
      have hexpression := (hs.admits (hs.toForest.parent?_of_mem (mem_of_nth? hl₀))).operand hlist.2
      exact ⟨p₀, h.within_of_heir hstays hlist.1 (mem_of_nth? hp₀) (hreached hmem hy) hx hlt,
        .operand hyroot hkind hl₀ (h.determined hs hexpression hdet) hp₀⟩
  | @clause y p hy hkind hp hentry hends =>
      have hmem := (List.mem_filter.mp hp).1
      obtain ⟨hylt, hyroot, hstays⟩ := hold hy (List.ne_nil_of_mem hmem)
      rw [h.kind_eq hylt] at hkind
      have hsame := h.clausesOf_eq hs hs' hseats hylt hyroot hstays hkind
      rw [hsame] at hp hends
      refine ⟨p, h.within_of_within (hreached hmem hy) hx hlt, .clause hyroot hkind hp
        (fun v hv => ?_) fun c hc => ?_⟩
      · rw [← h.entry?_eq hs hs' hseats hylt hyroot hstays hkind hv]
        exact hentry v (h.agrees hs hv)
      · obtain ⟨body, hbody, hend⟩ := hends c hc
        obtain ⟨hclt, hcstays, hclist⟩ := h.clause_stays hs hstays hc
        have hbodyRoot := hreached (mem_of_child? hbody)
          (hreached (List.mem_filter.mp (hsame ▸ hc)).1 hy)
        have hapart := h.endsApart hs hend hbodyRoot
        have hbodyOld := h.old_of_attached hbodyRoot (.inl hend.kind_ne_semicolon)
        rw [h.child?_heir hclt hcstays hclist, Option.map_eq_some_iff] at hbody
        obtain ⟨body₀, hbody₀, rfl⟩ := hbody
        exact ⟨body₀, hbody₀, h.endsInBreak_of_heir
          (hs.toForest.parent?_of_mem (mem_of_child? hbody₀)) hclist hbodyOld.1 hapart⟩

omit hs in
/-- What takes the place of a part of a condition counts as that part did. -/
theorem counts_heir (hcounts : s.Counts c x) (hx : (s.head x).isExpression) :
    s.Counts c (heir id news x) := by
  rw [heir]
  split
  case isFalse => exact hcounts
  case isTrue heq =>
      subst heq
      have hkind := h.kind_of_isExpression hx
      obtain ⟨d, b, n, rfl, hd, hdet, hn, -⟩ := h.choice hkind
      exact hcounts.chosen hkind hd hdet hn

/-- What a condition depends on through logic alone afterwards did count before. -/
theorem counts (hroot : s'.Within (heir id news c) s'.root) (hc : (s.head c).isExpression)
    (hcounts : s'.Counts (heir id news c) x) : s.Counts c x := by
  -- A part with operands is an old one, and what stands in it is the heir of an operand.
  have hpart : ∀ {n a : NodeId} {i : Nat}, s'.Counts (heir id news c) n → s.Counts c n →
      s'.nth? n i = some a → (s.kind n = s'.kind n → (s.kind n).isOperation) →
      s.kind n = s'.kind n ∧ n < s.size ∧ s.Stays id news n ∧ ∃ a₀, s.nth? n i = some a₀ ∧
        a = heir id news a₀ ∧ (s.head a₀).isExpression := by
    intro n a i hn' hn ha hop
    obtain ⟨hlt, -, hstays⟩ := h.old_of_attached ((hn'.within h.forest.toLinked).trans hroot)
      (.inr (List.ne_nil_of_mem (mem_of_nth? ha)))
    have hkind := (h.kind_eq hlt).symm
    have hlist : (s.kind n).isStatementList = false := by
      have hop := hop hkind
      revert hop
      cases s.kind n <;> first | exact fun _ => rfl | exact nofun
    rw [h.nth?_heir hlt hstays hlist, Option.map_eq_some_iff] at ha
    obtain ⟨a₀, ha₀, rfl⟩ := ha
    exact ⟨hkind, hlt, hstays, a₀, ha₀, rfl,
      (hs.admits (hs.toForest.parent?_of_mem (mem_of_nth? ha₀))).operand (hop hkind)⟩
  induction hcounts with
  | whole => exact h.counts_heir .whole hc
  | negated hn' hkind ha ih =>
      obtain ⟨heq, -, -, a₀, ha₀, rfl, hexpression⟩ :=
        hpart hn' ih ha fun heq => by rw [heq, hkind]; rfl
      exact h.counts_heir (ih.negated (heq.trans hkind) ha₀) hexpression
  | operand hn' hkind hi ha ih =>
      obtain ⟨heq, -, -, a₀, ha₀, rfl, hexpression⟩ := hpart hn' ih ha fun heq => by
        obtain ⟨hkind, -⟩ | ⟨hkind, -⟩ := Kind.of_decisive? hkind <;> rw [heq, hkind] <;> rfl
      exact h.counts_heir (ih.operand (heq ▸ hkind) hi ha₀) hexpression
  | chosen hn' hkind hd hdet ha ih =>
      simp only [branch?, hkind] at ha
      obtain ⟨heq, hlt, hstays, a₀, ha₀, rfl, hexpression⟩ :=
        hpart hn' ih ha fun heq => by rw [heq, hkind]; rfl
      obtain ⟨d₀, hd₀, -, hdet₀⟩ := h.determined_condition? hs hlt hstays hd hdet
      have hkind₀ := heq.trans hkind
      refine h.counts_heir (ih.chosen hkind₀ hd₀ hdet₀ ?_) hexpression
      simpa only [branch?, hkind₀] using ha₀

/-- An operand that makes no difference afterwards made none before. -/
theorem masked (hx : s'.Masked x) (hlt : x < s.size) : s.Masked x := by
  obtain ⟨y, c, b', hy, hc, hdet, n, l, r, b, hn, hkind, hl, hr, hxl, hdet'⟩ := hx
  have hold : ∀ {y c}, c ∈ s'.children y → s'.Within y s'.root →
      y < s.size ∧ s.Within y s.root ∧ s.Stays id news y := fun hc hy =>
    h.old_of_attached hy (.inr (List.ne_nil_of_mem hc))
  have hreached : ∀ {y c}, c ∈ s'.children y → s'.Within y s'.root → s'.Within c s'.root :=
    fun hc hy => (within_of_parent (h.forest.parent?_of_mem hc)).trans hy
  have hcroot := hreached (mem_of_condition? hc) hy
  have hnroot := (hn.within h.forest.toLinked).trans hcroot
  have hlroot := hreached (mem_of_nth? hl) hnroot
  obtain ⟨hylt, hyroot, hystays⟩ := hold (mem_of_condition? hc) hy
  obtain ⟨hnlt, -, hnstays⟩ := hold (mem_of_nth? hl) hnroot
  obtain ⟨c₀, hc₀, rfl, hdet₀⟩ := h.determined_condition? hs hylt hystays hc hdet
  rw [h.kind_eq hnlt] at hkind
  have hlist : (s.kind n).isStatementList = false ∧ (s.kind n).isOperation := by
    obtain ⟨hkind, -⟩ | ⟨hkind, -⟩ := Kind.of_decisive? hkind <;> rw [hkind] <;> exact ⟨rfl, rfl⟩
  rw [h.nth?_heir hnlt hnstays hlist.1, Option.map_eq_some_iff] at hl hr
  obtain ⟨l₀, hl₀, rfl⟩ := hl
  obtain ⟨r₀, hr₀, rfl⟩ := hr
  have hexpression := (hs.admits (hs.toForest.parent?_of_mem (mem_of_nth? hr₀))).operand hlist.2
  have hn₀ := h.counts hs hcroot (hs.isExpression_of_condition? hc₀) hn
  refine ⟨y, c₀, b', hyroot, hc₀, hdet₀, n, l₀, r₀, b, hn₀, hkind, hl₀, hr₀, ?_,
    h.determined hs hexpression hdet'⟩
  exact h.within_of_heir hnstays hlist.1 (mem_of_nth? hl₀) hlroot hxl hlt

/-- What is not needed afterwards was not needed before. -/
theorem needless (hs' : s'.Ordered) (hseats : s.Seated) (hx : s'.Needless x) (hlt : x < s.size) :
    s.Needless x := by
  rcases hx with ⟨p, hxp, hp⟩ | hx
  · exact .inl (h.untaken hs hs' hseats hp hxp hlt)
  · exact .inr (h.masked hs hx hlt)

omit hs in
/-- The parts that decide what is run keep their places. -/
theorem seated (hs : s.Linked) (hseats : s.Seated) : s'.Seated := by
  intro p i c hp hc
  obtain ⟨hlt, hroot, hstays⟩ :=
    h.old_of_attached hp (.inr (List.ne_nil_of_mem (mem_of_nth? hc)))
  by_cases hseated : (s.kind p).isSeated
  case neg =>
      refine Head.seats_of_not_isSeated ?_
      rw [show (s'.head p).kind = s.kind p from h.kind_eq hlt]
      exact Bool.eq_false_iff.mpr hseated
  have hlist : (s.kind p).isStatementList = false := by
    revert hseated
    cases s.kind p <;> first | exact fun _ => rfl | exact nofun
  rw [h.nth?_heir hlt hstays hlist, Option.map_eq_some_iff] at hc
  obtain ⟨c₀, hc₀, rfl⟩ := hc
  have hmem := mem_of_nth? hc₀
  have hplace := hseats p i c₀ hroot hc₀
  refine hplace.replaced (h.kind_eq hlt) (h.role_heir hstays hlist hmem) ?_
  by_cases heq : c₀ = id
  · subst heq
    refine .inr ?_
    rcases h.kind_mem with hid | hid | hid <;> simp [show (s.head c₀).kind = _ from hid]
  · rw [heir, if_neg heq]
    exact .inl (h.kind_eq (hs.child_lt hmem))

end

end Store.Resolves

/-! ### The removal of dead branches -/

/-- What the decisions so far have made of a script: all effects that are gone were not needed, and
what is not needed now was not needed at first. -/
structure Store.Discards (s s' : Store) : Prop where
  sound : s'.Sound
  ordered : s'.Ordered
  seated : s'.Seated
  size_le : s.size ≤ s'.size
  kind_eq : ∀ x < s.size, s'.kind x = s.kind x
  needless : ∀ x < s.size, s'.Needless x → s.Needless x
  dropped : ∀ x, s.Within x s.root → (s.kind x).isEffect → ¬ s'.Within x s'.root → s.Needless x

variable {s s' s₀ : Store} {id : NodeId} {news : List NodeId} {lost : Option NodeId}

theorem Store.Discards.refl (hs : s.Sound) (ho : s.Ordered) (hseats : s.Seated) : Discards s s :=
  ⟨hs, ho, hseats, Nat.le_refl _, fun _ _ => rfl, fun _ _ hx => hx,
    fun _ hx _ hnot => absurd hx hnot⟩

theorem Store.Discards.resolve (h : Discards s₀ s) (hs₀ : s₀.Forest) (hid : s.Within id s.root)
    (hresolves : Resolves s s' id news lost) (hs' : s'.Sound) (ho' : s'.Ordered) :
    Discards s₀ s' where
  sound := hs'
  ordered := ho'
  seated := hresolves.seated h.sound.toLinked h.seated
  size_le := h.size_le.trans hresolves.size_le
  kind_eq x hx := (hresolves.kind_eq (hx.trans_le h.size_le)).trans (h.kind_eq x hx)
  needless x hx hneedless :=
    h.needless x hx (hresolves.needless h.ordered ho' h.seated hneedless (hx.trans_le h.size_le))
  dropped x hx heffect hgone := by
    by_cases hattached : s.Within x s.root
    · have hlt : x < s₀.size := hs₀.lt_of_reached hx
      have heffect' : (s.kind x).isEffect := by rwa [h.kind_eq x hlt]
      have hkind : s.kind x ≠ .breakStmt := by
        intro hkind
        rw [hkind] at heffect'
        cases heffect'
      obtain ⟨hbelow, hout⟩ := hresolves.of_dropped hid hattached hgone hkind
      exact h.needless x hlt (hresolves.idle x hbelow hout heffect')
    · exact h.dropped x hx heffect hattached

/-- A conjunction that a condition comes to only when what is in the condition has been decided. -/
def nestedDenial : String := "if(true?f()&&false:x)g();"

example :
    let s := Store.ofTree (treeOf nestedDenial)
    let s' := (removeDeadBranches.run s).2
    s.kind 4 = .and ∧ s.parent? 5 = some 4 ∧ s.kind 5 = .call ∧ 5 ∉ s'.postorder s'.root := by
  decide +kernel

end ScriptMin
