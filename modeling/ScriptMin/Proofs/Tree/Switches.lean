import Mathlib.Data.List.TakeWhile
import ScriptMin.Proofs.Tree.Execution

/-!
Switches over literals. Where all labels are literals and all clauses are closed by a `break`, a
`switch` runs the statements of one clause: the first one whose label is strictly equal to the
value, or else the default clause, wherever it stands.
-/

namespace ScriptMin

namespace Tree

variable {clauses : List Tree} {chosen : Tree → Bool}

def isChosenBy (value : Literal) (c : Tree) : Bool :=
  !c.isDefault && ((c.child? .label).bind literal?).any value.strictlyEqual

/-- The clause that a `switch` over a literal enters: the first one whose label is strictly equal to
the value, or the default clause if there is none. -/
def selected? (value : Literal) (t : Tree) : Option Tree :=
  t.clauses.find? (isChosenBy value) <|> (t.clauses.filter isDefault).getLast?

/-- The statements that a `switch` over a literal runs: those of the clause that it enters, without
the `break` at their end. -/
def entryStatements (value : Literal) (t : Tree) : List Tree :=
  ((t.selected? value).map fun c => c.clauseStatements.dropLast).getD []

/-- The last statement of a clause is a `break` without a label, and no other one leaves the
`switch` by such a `break`. -/
structure IsClosed (c : Tree) : Prop where
  ends : ∃ last ∈ c.clauseStatements.getLast?, last.IsPlainBreak
  stays : ∀ t ∈ c.clauseStatements.dropLast, t.breaksLoose = false

theorem mem_clauses_of_selected? {value : Literal} {t c : Tree} (h : t.selected? value = some c) :
    c ∈ t.clauses := by
  rw [selected?] at h
  cases hfound : t.clauses.find? (isChosenBy value) with
  | none =>
      rw [hfound] at h
      exact (List.mem_filter.mp (List.mem_of_getLast? h)).1
  | some found =>
      rw [hfound] at h
      exact Option.some_inj.mp h ▸ List.mem_of_find?_eq_some hfound

theorem head?_fromDefault : (fromDefault clauses).head? = (clauses.filter isDefault).getLast? := by
  induction clauses with
  | nil => rfl
  | cons c cs ih =>
      rw [fromDefault, List.filter_cons]
      cases hrest : cs.any isDefault with
      | true =>
          have hne : cs.filter isDefault ≠ [] := by
            obtain ⟨d, hd, hdefault⟩ := List.any_eq_true.mp hrest
            exact List.ne_nil_of_mem (List.mem_filter.mpr ⟨hd, hdefault⟩)
          rw [if_neg (by simp), ih]
          split
          · rw [List.getLast?_cons_of_ne_nil hne]
          · rfl
      | false =>
          have hnil : cs.filter isDefault = [] :=
            List.filter_eq_nil_iff.mpr fun d hd => List.any_eq_false.mp hrest d hd
          rw [hnil] at ih ⊢
          cases hdefault : c.isDefault with
          | true => rfl
          | false => exact ih

theorem head?_entered : (entered clauses (clauses.dropWhile fun c => !chosen c)).head? =
    (clauses.find? chosen <|> (clauses.filter isDefault).getLast?) := by
  rw [List.find?_eq_head?_dropWhile_not]
  cases hcase : clauses.dropWhile fun c => !chosen c with
  | nil => exact head?_fromDefault
  | cons c cs => rfl

end Tree

namespace World

variable {W : World} {labels : List String} {t : Tree} {ts : List Tree} {σ σ' : W.State}
  {e : Ending W.Exit} {value : Datum W.Object}

/-! ### Breaks and switches -/

theorem runs_break_iff (h : t.IsPlainBreak) :
    W.Runs (.statement labels t) σ e σ' ↔ e = .broke none ∧ σ' = σ := by
  have hkind := h.kind
  constructor
  · intro hrun
    cases hrun with
    | breaks => exact ⟨congrArg _ h.text, rfl⟩
    | _ => simp_all [Kind.isSimple, Kind.isScope, Kind.isLoop]
  · rintro ⟨rfl, rfl⟩
    rw [← h.text]
    exact .breaks h.kind

/-- Behind a `break` nothing runs. -/
theorem runs_break_cons_iff (h : t.IsPlainBreak) :
    W.Runs (.sequence (t :: ts)) σ e σ' ↔ e = .broke none ∧ σ' = σ := by
  constructor
  · intro hrun
    cases hrun with
    | cons first _ => cases ((runs_break_iff h).mp first).1
    | stop _ first => exact (runs_break_iff h).mp first
  · rintro ⟨rfl, rfl⟩
    exact .stop nofun ((runs_break_iff h).mpr ⟨rfl, rfl⟩)

/-- A `switch` runs the statements from the clause on that is chosen, until a `break` leaves it. -/
theorem runs_switch_iff (hkind : t.kind = .switchCase) {discriminant : Tree}
    (hvalue : t.child? .discriminant = some discriminant) {result : Datum W.Object}
    (hevaluates : ∀ {r σ σ'}, W.Evaluates discriminant σ r σ' ↔ r = .ok result ∧ σ' = σ)
    {found : List Tree}
    (hselects : ∀ {r σ σ'}, W.Selects result t.clauses σ r σ' ↔ r = .ok found ∧ σ' = σ) :
    W.Runs (.statement labels t) σ e σ' ↔ ∃ e', e = e'.behindSwitch ∧
      W.Runs (.sequence ((Tree.entered t.clauses found).flatMap Tree.clauseStatements))
        σ e' σ' := by
  constructor
  · intro hrun
    cases hrun with
    | switch kind has_value evaluates selects inside =>
        rw [hvalue, Option.some_inj] at has_value
        subst has_value
        obtain ⟨⟨⟩, rfl⟩ := hevaluates.mp evaluates
        obtain ⟨⟨⟩, rfl⟩ := hselects.mp selects
        exact ⟨_, rfl, inside⟩
    | switch_fails kind has_value evaluates =>
        rw [hvalue, Option.some_inj] at has_value
        subst has_value
        cases (hevaluates.mp evaluates).1
    | selection_fails kind has_value evaluates selects =>
        rw [hvalue, Option.some_inj] at has_value
        subst has_value
        obtain ⟨⟨⟩, rfl⟩ := hevaluates.mp evaluates
        cases (hselects.mp selects).1
    | _ => simp_all [Kind.isSimple, Kind.isScope, Kind.isLoop]
  · rintro ⟨e', rfl, inside⟩
    exact .switch hkind hvalue (hevaluates.mpr ⟨rfl, rfl⟩) (hselects.mpr ⟨rfl, rfl⟩) inside

/-! ### Clauses with literal labels -/

/-- Values that need no evaluation. -/
theorem evaluates_iff {v : Datum W.Object} (h : W.value? t = some v)
    {r : Except W.Exit (Datum W.Object)} : W.Evaluates t σ r σ' ↔ r = .ok v ∧ σ' = σ := by
  rw [Evaluates, h]

theorem isSome_value? (h : t.kind.isLiteral) : (W.value? t).isSome := by
  rw [value?, Tree.literal?]
  cases hkind : t.kind <;> rw [hkind] at h <;> first | rfl | cases h

/-- A clause whose label has a value is chosen if that is strictly equal to the value looked for. -/
theorem selects_cons_iff {c label : Tree} {v : Datum W.Object} (hdefault : c.isDefault = false)
    (hlabel : c.child? .label = some label) (hv : W.value? label = some v)
    {r : Except W.Exit (List Tree)} :
    W.Selects value (c :: ts) σ r σ' ↔
      if W.strictlyEqual value v then r = .ok (c :: ts) ∧ σ' = σ
      else W.Selects value ts σ r σ' := by
  have hlabelEq : ∀ {other}, c.child? .label = some other → other = label := by
    intro other hother
    rw [hlabel, Option.some_inj] at hother
    exact hother.symm
  constructor
  · intro h
    cases h with
    | default kind =>
        rw [hdefault] at kind
        cases kind
    | here _ has_label evaluates equal =>
        obtain rfl := hlabelEq has_label
        obtain ⟨⟨⟩, rfl⟩ := (evaluates_iff hv).mp evaluates
        rw [if_pos equal]
        exact ⟨rfl, rfl⟩
    | other _ has_label evaluates differ rest =>
        obtain rfl := hlabelEq has_label
        obtain ⟨⟨⟩, rfl⟩ := (evaluates_iff hv).mp evaluates
        rwa [if_neg (by simp [differ])]
    | fails _ has_label evaluates =>
        obtain rfl := hlabelEq has_label
        cases ((evaluates_iff hv).mp evaluates).1
  · intro h
    split at h
    case isTrue hequal =>
        obtain ⟨rfl, rfl⟩ := h
        exact .here hdefault hlabel ((evaluates_iff hv).mpr ⟨rfl, rfl⟩) hequal
    case isFalse hdiffer =>
        exact .other hdefault hlabel ((evaluates_iff hv).mpr ⟨rfl, rfl⟩)
          (Bool.not_eq_true _ ▸ hdiffer) h

theorem any_value?_eq {c : Tree} {value : Literal} :
    ((c.child? .label).bind W.value?).any (W.strictlyEqual (.literal value)) =
      ((c.child? .label).bind Tree.literal?).any value.strictlyEqual := by
  cases c.child? .label with
  | none => rfl
  | some label =>
      rw [Option.bind_some, Option.bind_some, value?]
      split
      case isTrue hkind =>
          rw [Tree.literal?, hkind]
          rfl
      case isFalse =>
          cases label.literal? <;> rfl

/-- Labels that are literals are evaluated without anything happening. -/
theorem selects_iff {value : Literal}
    (hlabels : ∀ c ∈ ts, c.isDefault = false → ∃ l, c.child? .label = some l ∧ l.kind.isLiteral)
    {r : Except W.Exit (List Tree)} :
    W.Selects (.literal value) ts σ r σ' ↔
      r = .ok (ts.dropWhile fun c => !c.isChosenBy value) ∧ σ' = σ := by
  induction ts with
  | nil =>
      constructor
      · rintro ⟨⟩
        exact ⟨rfl, rfl⟩
      · rintro ⟨rfl, rfl⟩
        exact .nothing
  | cons c cs ih =>
      have ih := ih fun d hd => hlabels d (List.mem_cons_of_mem _ hd)
      cases hdefault : c.isDefault with
      | true =>
          rw [List.dropWhile_cons_of_pos (by simp [Tree.isChosenBy, hdefault]), ← ih]
          constructor
          · intro h
            cases h with
            | default _ rest => exact rest
            | here kind => rw [hdefault] at kind; cases kind
            | other kind => rw [hdefault] at kind; cases kind
            | fails kind => rw [hdefault] at kind; cases kind
          · exact .default hdefault
      | false =>
          obtain ⟨label, hlabel, hliteral⟩ := hlabels c List.mem_cons_self hdefault
          obtain ⟨v, hv⟩ := Option.isSome_iff_exists.mp (isSome_value? (W := W) hliteral)
          have hchosen : c.isChosenBy value = W.strictlyEqual (.literal value) v := by
            rw [Tree.isChosenBy, ← any_value?_eq, hlabel, Option.bind_some, hv, Option.any_some,
              hdefault, Bool.not_false, Bool.true_and]
          rw [selects_cons_iff hdefault hlabel hv, ← hchosen]
          cases hcase : c.isChosenBy value with
          | true => rw [List.dropWhile_cons_of_neg (by simp [hcase]), if_pos rfl]
          | false =>
              rw [List.dropWhile_cons_of_pos (by simp [hcase]), if_neg Bool.false_ne_true, ih]

/-! ### Statements that run -/

/-- The clauses from a closed one on run its statements up to the `break` at their end, which leaves
the `switch`. -/
theorem runs_closed_iff {c : Tree} (h : c.IsClosed) :
    (∃ e', e = e'.behindSwitch ∧
        W.Runs (.sequence ((c :: ts).flatMap Tree.clauseStatements)) σ e' σ') ↔
      W.Runs (.sequence c.clauseStatements.dropLast) σ e σ' := by
  obtain ⟨last, hlast, hbreak⟩ := h.ends
  have hsplit : (c :: ts).flatMap Tree.clauseStatements =
      c.clauseStatements.dropLast ++ last :: ts.flatMap Tree.clauseStatements := by
    obtain ⟨front, hfront⟩ := List.getLast?_eq_some_iff.mp hlast
    rw [List.flatMap_cons, hfront, List.dropLast_concat, List.append_assoc, List.singleton_append]
  have hstays : ∀ {σ₁}, ¬ W.Runs (.sequence c.clauseStatements.dropLast) σ (.broke none) σ₁ := by
    intro σ₁ hrun
    obtain ⟨t, ht, hloose⟩ := List.any_eq_true.mp (breaksLoose_of_runs hrun rfl)
    rw [h.stays t ht] at hloose
    cases hloose
  rw [hsplit]
  constructor
  · rintro ⟨e', rfl, hrun⟩
    rcases runs_append_iff.mp hrun with ⟨σ₁, hkept, hrest⟩ | ⟨-, hkept⟩
    · obtain ⟨rfl, rfl⟩ := (runs_break_cons_iff hbreak).mp hrest
      exact hkept
    · rw [Ending.behindSwitch.eq_def]
      split
      · exact absurd hkept hstays
      · exact hkept
  · intro hkept
    by_cases hnormal : e = .normal
    · subst hnormal
      refine ⟨.broke none, rfl, runs_append_iff.mpr (.inl ⟨σ', hkept, ?_⟩)⟩
      exact (runs_break_cons_iff hbreak).mpr ⟨rfl, rfl⟩
    · refine ⟨e, ?_, runs_append_iff.mpr (.inr ⟨hnormal, hkept⟩)⟩
      rw [Ending.behindSwitch.eq_def]
      split
      · exact absurd hkept hstays
      · rfl

/-- A `switch` over a literal with closed clauses runs the statements of the clause it enters. -/
theorem runs_entryStatements_iff (hkind : t.kind = .switchCase) {discriminant : Tree}
    {value : Literal} (hdiscriminant : t.child? .discriminant = some discriminant)
    (hvalue : discriminant.literal? = some value)
    (hlabels : ∀ c ∈ t.clauses, c.isDefault = false →
      ∃ l, c.child? .label = some l ∧ l.kind.isLiteral)
    (hclosed : ∀ c ∈ t.clauses, c.IsClosed) :
    W.Runs (.statement labels t) σ e σ' ↔
      W.Runs (.sequence (t.entryStatements value)) σ e σ' := by
  have hv : W.value? discriminant = some (.literal value) := by
    rw [value?, if_neg, hvalue]
    · rfl
    · intro hpattern
      rw [Tree.literal?, hpattern] at hvalue
      cases hvalue
  rw [runs_switch_iff hkind hdiscriminant (evaluates_iff hv) (selects_iff hlabels),
    Tree.entryStatements, Tree.selected?, ← Tree.head?_entered]
  cases hentered : Tree.entered t.clauses (t.clauses.dropWhile fun c => !c.isChosenBy value) with
  | nil =>
      constructor
      · rintro ⟨e', rfl, hrun⟩
        obtain ⟨rfl, rfl⟩ := runs_nil_iff.mp hrun
        exact .nil
      · intro hrun
        obtain ⟨rfl, rfl⟩ := runs_nil_iff.mp hrun
        exact ⟨.normal, rfl, .nil⟩
  | cons c cs =>
      have hentry : t.selected? value = some c := by
        rw [Tree.selected?, ← Tree.head?_entered, hentered]
        rfl
      exact runs_closed_iff (hclosed c (Tree.mem_clauses_of_selected? hentry))

end World

end ScriptMin
