import Mathlib.Data.Set.Basic
import ScriptMin.Proofs.Tree.Jumps
import ScriptMin.Proofs.Tree.Truth

/-!
Execution of statements. How statements run in a world is a relation between what there is to run
and the states before and behind it, together with how the run ends. The world says what
expressions and the statements do in which no other ones stand; blocks, loops, jumps and the choice
of clauses are described here. Main statement: only what contains a `break` without a label outside
of all loops, switches and functions in it ends by one.
-/

namespace ScriptMin

/-- How statements end. -/
inductive Ending (Exit : Type) where
  | normal
  | broke (label : Option String)
  | continued (label : Option String)
  /-- By leaving the function. -/
  | left (exit : Exit)

/-- Values of literals, and all others. -/
inductive Datum (Object : Type) where
  | literal (value : Literal)
  | object (object : Object)

/-- A world in which statements run. -/
structure World where
  State : Type
  /-- Values that no literal has. -/
  Object : Type
  /-- What is returned or thrown. -/
  Exit : Type
  /-- How far a loop has come. -/
  Control : Type
  /-- Whether two values that no literals have are the same. -/
  same : Object → Object → Bool
  isTrue : Datum Object → Bool
  /-- The object that a regular expression stands for. -/
  pattern : Tree → Object
  /-- Evaluation of an expression that is no literal. -/
  evaluates : Tree → State → Except Exit (Datum Object) → State → Prop
  /-- Running a statement in which no other ones stand. -/
  performs : Tree → State → Option Exit → State → Prop
  /-- Making the names visible that a statement brings along for the ones in it. -/
  enters : Tree → State → Option Exit → State → Prop
  leaves : Tree → State → State → Prop
  /-- What a loop evaluates before its first turn. -/
  starts : Tree → State → Except Exit Control → State → Prop
  /-- What a loop evaluates before a turn. The result is `none` if there is no other turn. -/
  turns : Tree → Control → State → Except Exit (Option Control) → State → Prop
  /-- The choice of a catch clause. -/
  catches : Tree → Exit → State → Except Exit (Option Tree) → State → Prop

namespace Kind

/-- Whether the kind is a statement that makes names visible for the statements in it. -/
def isScope : Kind → Bool
  | .block | .withStmt | .letBlock => true
  | _ => false

/-- Whether the kind is no jump and no statement in which others stand. -/
def isSimple : Kind → Bool
  | .breakStmt | .continueStmt | .ifElse | .switchCase | .label | .tryCatch => false
  | kind => !kind.isLoop && !kind.isScope

/-- Whether a `break` without a label cannot leave a node of the kind. -/
def holdsBreaks : Kind → Bool
  | .switchCase | .function => true
  | kind => kind.isLoop

end Kind

namespace Tree

/-! ### Switches -/

def clauses (t : Tree) : List Tree := t.children.filter (·.kind matches .caseClause | .defaultClause)

def isDefault (t : Tree) : Bool := t.kind == .defaultClause

def clauseStatements (t : Tree) : List Tree := ((t.child? .statements).map children).getD []

/-- The clauses from the default clause on. A `switch` has one default clause at most. -/
def fromDefault : List Tree → List Tree
  | [] => []
  | clause :: rest =>
    if clause.isDefault && !rest.any isDefault then clause :: rest else fromDefault rest

/-- The clauses that a `switch` runs if the choice by labels has found some, and else. -/
def entered (clauses : List Tree) : List Tree → List Tree
  | [] => fromDefault clauses
  | found => found

/-- A `break` without a label. -/
structure IsPlainBreak (t : Tree) : Prop where
  kind : t.kind = .breakStmt
  text : t.head.text? = none

def scopeStatements (t : Tree) : List Tree :=
  match t.kind with
  | .block => t.children
  | .withStmt => (t.child? .body).toList
  | _ => (t.child? .block).toList

mutual
/-- Whether a `break` without a label stands outside of all that it cannot leave. -/
def breaksLoose : Tree → Bool
  | .node head children =>
    if head.kind = .breakStmt ∧ head.text? = none then true
    else if head.kind.holdsBreaks then false
    else anyBreaksLoose children

def anyBreaksLoose : List Tree → Bool
  | [] => false
  | t :: rest => breaksLoose t || anyBreaksLoose rest
end

theorem anyBreaksLoose_iff {ts : List Tree} :
    anyBreaksLoose ts = true ↔ ∃ t ∈ ts, t.breaksLoose = true := by
  induction ts with
  | nil => simp [anyBreaksLoose]
  | cons t ts ih => simp [anyBreaksLoose, ih]

theorem breaksLoose_iff {t : Tree} : t.breaksLoose = true ↔
    t.IsPlainBreak ∨ t.kind.holdsBreaks = false ∧ ∃ c ∈ t.children, c.breaksLoose = true := by
  cases t with
  | node head children =>
      rw [breaksLoose]
      split
      case isTrue hbreak => exact iff_of_true rfl (.inl ⟨hbreak.1, hbreak.2⟩)
      case isFalse hbreak =>
          have hnot : ¬ (node head children).IsPlainBreak := fun h => hbreak ⟨h.kind, h.text⟩
          rw [or_iff_right hnot, show (node head children).kind = head.kind from rfl]
          cases head.kind.holdsBreaks with
          | true => simp
          | false => simpa [Tree.children] using anyBreaksLoose_iff

theorem breaksLoose_of_mem {t c : Tree} (hkind : t.kind.holdsBreaks = false)
    (hc : c ∈ t.children) (h : c.breaksLoose = true) : t.breaksLoose = true :=
  breaksLoose_iff.mpr (.inr ⟨hkind, c, hc, h⟩)

theorem mem_children_of_child? {t c : Tree} {role : Role} (h : t.child? role = some c) :
    c ∈ t.children :=
  List.mem_of_find?_eq_some h

end Tree

namespace Ending

variable {Exit : Type}

/-- How a statement ends that leaves the function or not. -/
def ofExit? : Option Exit → Ending Exit
  | none => .normal
  | some exit => .left exit

def behindSwitch : Ending Exit → Ending Exit
  | .broke none => .normal
  | ending => ending

def behindLoop : Ending Exit → Ending Exit
  | .broke none => .normal
  | ending => ending

/-- How a statement with a label ends, by the end of the statement behind the label. -/
def behindLabel (label : String) : Ending Exit → Ending Exit
  | .broke (some other) => if other = label then .normal else .broke (some other)
  | ending => ending

/-- Whether a loop with some labels goes on behind a turn. -/
def goesOn (labels : List String) : Ending Exit → Bool
  | .normal | .continued none => true
  | .continued (some label) => labels.contains label
  | _ => false

/-- How a `try` ends, by the end of what is guarded and of the last block. -/
def behindFinally (guarded : Ending Exit) : Ending Exit → Ending Exit
  | .normal => guarded
  | ending => ending

end Ending

inductive Code (W : World) where
  /-- A statement behind some labels. -/
  | statement (labels : List String) (t : Tree)
  | sequence (ts : List Tree)
  /-- The turns of a loop behind some labels. -/
  | loop (labels : List String) (t : Tree) (control : W.Control)
  /-- A `try` without its last block. -/
  | guarded (t : Tree)

namespace World

variable (W : World)

def strictlyEqual : Datum W.Object → Datum W.Object → Bool
  | .literal a, .literal b => a.strictlyEqual b
  | .object a, .object b => W.same a b
  | _, _ => false

def value? (t : Tree) : Option (Datum W.Object) :=
  if t.kind = .regExp then some (.object (W.pattern t)) else t.literal?.map .literal

/-- Evaluation of an expression. A literal only has its value. -/
def Evaluates (t : Tree) (σ : W.State) (result : Except W.Exit (Datum W.Object)) (σ' : W.State) :
    Prop :=
  match W.value? t with
  | some value => result = .ok value ∧ σ' = σ
  | none => W.evaluates t σ result σ'

/-- The choice of a clause by the labels, which are evaluated in order until one of them is strictly
equal to the value. The result is the clauses from the chosen one on. -/
inductive Selects (value : Datum W.Object) :
    List Tree → W.State → Except W.Exit (List Tree) → W.State → Prop where
  | nothing {σ : W.State} : Selects value [] σ (.ok []) σ
  | default {c : Tree} {cs : List Tree} {σ σ' : W.State} {result : Except W.Exit (List Tree)}
      (kind : c.isDefault) (rest : Selects value cs σ result σ') :
      Selects value (c :: cs) σ result σ'
  | here {c label : Tree} {cs : List Tree} {σ σ' : W.State} {v : Datum W.Object}
      (kind : c.isDefault = false) (has_label : c.child? .label = some label)
      (evaluates : W.Evaluates label σ (.ok v) σ') (equal : W.strictlyEqual value v) :
      Selects value (c :: cs) σ (.ok (c :: cs)) σ'
  | other {c label : Tree} {cs : List Tree} {σ σ₁ σ' : W.State} {v : Datum W.Object}
      {result : Except W.Exit (List Tree)} (kind : c.isDefault = false)
      (has_label : c.child? .label = some label) (evaluates : W.Evaluates label σ (.ok v) σ₁)
      (differ : W.strictlyEqual value v = false) (rest : Selects value cs σ₁ result σ') :
      Selects value (c :: cs) σ result σ'
  | fails {c label : Tree} {cs : List Tree} {σ σ' : W.State} {exit : W.Exit}
      (kind : c.isDefault = false) (has_label : c.child? .label = some label)
      (evaluates : W.Evaluates label σ (.error exit) σ') :
      Selects value (c :: cs) σ (.error exit) σ'

inductive Runs : Code W → W.State → Ending W.Exit → W.State → Prop where
  | nil {σ : W.State} : Runs (.sequence []) σ .normal σ
  | cons {t : Tree} {ts : List Tree} {σ σ₁ σ' : W.State} {e : Ending W.Exit}
      (first : Runs (.statement [] t) σ .normal σ₁) (rest : Runs (.sequence ts) σ₁ e σ') :
      Runs (.sequence (t :: ts)) σ e σ'
  | stop {t : Tree} {ts : List Tree} {σ σ' : W.State} {e : Ending W.Exit} (ends : e ≠ .normal)
      (first : Runs (.statement [] t) σ e σ') : Runs (.sequence (t :: ts)) σ e σ'
  | simple {labels : List String} {t : Tree} {σ σ' : W.State} {exit : Option W.Exit}
      (kind : t.kind.isSimple) (performs : W.performs t σ exit σ') :
      Runs (.statement labels t) σ (.ofExit? exit) σ'
  | breaks {labels : List String} {t : Tree} {σ : W.State} (kind : t.kind = .breakStmt) :
      Runs (.statement labels t) σ (.broke t.head.text?) σ
  | continues {labels : List String} {t : Tree} {σ : W.State} (kind : t.kind = .continueStmt) :
      Runs (.statement labels t) σ (.continued t.head.text?) σ
  | scope {labels : List String} {t : Tree} {σ σ₁ σ₂ σ' : W.State} {e : Ending W.Exit}
      (kind : t.kind.isScope) (enters : W.enters t σ none σ₁)
      (inside : Runs (.sequence t.scopeStatements) σ₁ e σ₂) (leaves : W.leaves t σ₂ σ') :
      Runs (.statement labels t) σ e σ'
  | scope_fails {labels : List String} {t : Tree} {σ σ' : W.State} {exit : W.Exit}
      (kind : t.kind.isScope) (enters : W.enters t σ (some exit) σ') :
      Runs (.statement labels t) σ (.left exit) σ'
  | branch {labels : List String} {t condition : Tree} {σ σ₁ σ' : W.State} {v : Datum W.Object}
      {e : Ending W.Exit} (kind : t.kind = .ifElse)
      (has_condition : t.child? .condition = some condition)
      (evaluates : W.Evaluates condition σ (.ok v) σ₁)
      (inside : Runs (.sequence (t.child? (if W.isTrue v then .thenPart else .elsePart)).toList)
        σ₁ e σ') :
      Runs (.statement labels t) σ e σ'
  | branch_fails {labels : List String} {t condition : Tree} {σ σ' : W.State} {exit : W.Exit}
      (kind : t.kind = .ifElse) (has_condition : t.child? .condition = some condition)
      (evaluates : W.Evaluates condition σ (.error exit) σ') :
      Runs (.statement labels t) σ (.left exit) σ'
  | switch {labels : List String} {t value : Tree} {σ σ₁ σ₂ σ' : W.State} {v : Datum W.Object}
      {found : List Tree} {e : Ending W.Exit} (kind : t.kind = .switchCase)
      (has_value : t.child? .discriminant = some value)
      (evaluates : W.Evaluates value σ (.ok v) σ₁) (selects : W.Selects v t.clauses σ₁ (.ok found) σ₂)
      (inside : Runs (.sequence ((Tree.entered t.clauses found).flatMap Tree.clauseStatements))
        σ₂ e σ') :
      Runs (.statement labels t) σ e.behindSwitch σ'
  | switch_fails {labels : List String} {t value : Tree} {σ σ' : W.State} {exit : W.Exit}
      (kind : t.kind = .switchCase) (has_value : t.child? .discriminant = some value)
      (evaluates : W.Evaluates value σ (.error exit) σ') :
      Runs (.statement labels t) σ (.left exit) σ'
  | selection_fails {labels : List String} {t value : Tree} {σ σ₁ σ' : W.State}
      {v : Datum W.Object} {exit : W.Exit} (kind : t.kind = .switchCase)
      (has_value : t.child? .discriminant = some value)
      (evaluates : W.Evaluates value σ (.ok v) σ₁)
      (selects : W.Selects v t.clauses σ₁ (.error exit) σ') :
      Runs (.statement labels t) σ (.left exit) σ'
  | label {labels : List String} {t behind : Tree} {σ σ' : W.State} {e : Ending W.Exit}
      (kind : t.kind = .label) (has_statement : t.child? .statement = some behind)
      (inside : Runs (.statement (t.head.text :: labels) behind) σ e σ') :
      Runs (.statement labels t) σ (e.behindLabel t.head.text) σ'
  | loop {labels : List String} {t : Tree} {control : W.Control} {σ σ₁ σ' : W.State}
      {e : Ending W.Exit} (kind : t.kind.isLoop) (starts : W.starts t σ (.ok control) σ₁)
      (turns : Runs (.loop labels t control) σ₁ e σ') :
      Runs (.statement labels t) σ e σ'
  | loop_fails {labels : List String} {t : Tree} {σ σ' : W.State} {exit : W.Exit}
      (kind : t.kind.isLoop) (starts : W.starts t σ (.error exit) σ') :
      Runs (.statement labels t) σ (.left exit) σ'
  | loop_done {labels : List String} {t : Tree} {control : W.Control} {σ σ' : W.State}
      (turns : W.turns t control σ (.ok none) σ') : Runs (.loop labels t control) σ .normal σ'
  | turn_fails {labels : List String} {t : Tree} {control : W.Control} {σ σ' : W.State}
      {exit : W.Exit} (turns : W.turns t control σ (.error exit) σ') :
      Runs (.loop labels t control) σ (.left exit) σ'
  | turn {labels : List String} {t : Tree} {control next : W.Control} {σ σ₁ σ₂ σ' : W.State}
      {e e' : Ending W.Exit} (turns : W.turns t control σ (.ok (some next)) σ₁)
      (inside : Runs (.sequence (t.child? .body).toList) σ₁ e σ₂) (goes_on : e.goesOn labels)
      (rest : Runs (.loop labels t next) σ₂ e' σ') :
      Runs (.loop labels t control) σ e' σ'
  | last_turn {labels : List String} {t : Tree} {control next : W.Control} {σ σ₁ σ' : W.State}
      {e : Ending W.Exit} (turns : W.turns t control σ (.ok (some next)) σ₁)
      (inside : Runs (.sequence (t.child? .body).toList) σ₁ e σ')
      (ends : e.goesOn labels = false) :
      Runs (.loop labels t control) σ e.behindLoop σ'
  | tries {labels : List String} {t : Tree} {σ σ₁ σ' : W.State} {e e' : Ending W.Exit}
      (kind : t.kind = .tryCatch) (guarded : Runs (.guarded t) σ e σ₁)
      (last : Runs (.sequence (t.child? .finallyBlock).toList) σ₁ e' σ') :
      Runs (.statement labels t) σ (e.behindFinally e') σ'
  | uncaught {t : Tree} {σ σ' : W.State} {e : Ending W.Exit} (kind : t.kind = .tryCatch)
      (inside : Runs (.sequence (t.child? .tryBlock).toList) σ e σ')
      (stays : ∀ exit, e ≠ .left exit) : Runs (.guarded t) σ e σ'
  | passed {t : Tree} {σ σ₁ σ' : W.State} {exit : W.Exit} (kind : t.kind = .tryCatch)
      (inside : Runs (.sequence (t.child? .tryBlock).toList) σ (.left exit) σ₁)
      (catches : W.catches t exit σ₁ (.ok none) σ') : Runs (.guarded t) σ (.left exit) σ'
  | catch_fails {t : Tree} {σ σ₁ σ' : W.State} {exit exit' : W.Exit} (kind : t.kind = .tryCatch)
      (inside : Runs (.sequence (t.child? .tryBlock).toList) σ (.left exit) σ₁)
      (catches : W.catches t exit σ₁ (.error exit') σ') : Runs (.guarded t) σ (.left exit') σ'
  | caught {t clause : Tree} {σ σ₁ σ₂ σ' : W.State} {exit : W.Exit} {e : Ending W.Exit}
      (kind : t.kind = .tryCatch)
      (inside : Runs (.sequence (t.child? .tryBlock).toList) σ (.left exit) σ₁)
      (catches : W.catches t exit σ₁ (.ok (some clause)) σ₂) (has_clause : clause ∈ t.children)
      (clause_kind : clause.kind = .catchClause)
      (rest : Runs (.sequence (clause.child? .block).toList) σ₂ e σ') : Runs (.guarded t) σ e σ'

end World

/-- Whether a `break` without a label stands in code outside of all that it cannot leave. -/
def Code.breaksLoose {W : World} : Code W → Bool
  | .statement _ t => t.breaksLoose
  | .sequence ts => ts.any Tree.breaksLoose
  | .loop _ _ _ => false
  | .guarded t => t.breaksLoose

namespace World

variable {W : World} {code : Code W} {labels : List String} {t : Tree} {ts us : List Tree}
  {σ σ' : W.State} {e : Ending W.Exit} {value : Datum W.Object} {clauses : List Tree}

theorem ofExit?_ne_broke {exit : Option W.Exit} {label : Option String} :
    Ending.ofExit? exit ≠ .broke label := by
  cases exit <;> nofun

theorem behindSwitch_ne_broke : e.behindSwitch ≠ .broke none := by
  rw [Ending.behindSwitch.eq_def]
  split
  · nofun
  · assumption

theorem behindLoop_ne_broke : e.behindLoop ≠ .broke none := by
  rw [Ending.behindLoop.eq_def]
  split
  · nofun
  · assumption

theorem eq_broke_of_behindLabel {label : String} (h : e.behindLabel label = .broke none) :
    e = .broke none := by
  rw [Ending.behindLabel.eq_def] at h
  split at h
  · split at h <;> cases h
  · exact h

theorem broke_of_behindFinally {e' : Ending W.Exit} (h : e.behindFinally e' = .broke none) :
    e = .broke none ∨ e' = .broke none := by
  rw [Ending.behindFinally.eq_def] at h
  split at h
  · exact .inl h
  · exact .inr h

/-- A statement in a role lets a `break` out if the node around it does. -/
theorem breaksLoose_of_part {role : Role} (hkind : t.kind.holdsBreaks = false)
    (h : ((t.child? role).toList).any Tree.breaksLoose) : t.breaksLoose = true := by
  obtain ⟨c, hc, hbreak⟩ := List.any_eq_true.mp h
  exact Tree.breaksLoose_of_mem hkind (Tree.mem_children_of_child? (Option.mem_toList.mp hc)) hbreak

theorem breaksLoose_of_scope (hkind : t.kind.isScope)
    (h : t.scopeStatements.any Tree.breaksLoose) : t.breaksLoose = true := by
  have hopen : t.kind.holdsBreaks = false := by
    cases hcase : t.kind <;> rw [hcase] at hkind <;> first | rfl | cases hkind
  rw [Tree.scopeStatements] at h
  split at h
  · obtain ⟨c, hc, hbreak⟩ := List.any_eq_true.mp h
    exact Tree.breaksLoose_of_mem hopen hc hbreak
  · exact breaksLoose_of_part hopen h
  · exact breaksLoose_of_part hopen h

/-- What ends by a `break` without a label has one that stands loose in it. -/
theorem breaksLoose_of_runs (h : W.Runs code σ e σ') (he : e = .broke none) :
    code.breaksLoose = true := by
  -- The induction is on the run; loops and switches never end this way.
  induction h with
  | nil => cases he
  | cons _ _ _ ih => exact Bool.or_eq_true_iff.mpr (.inr (ih he))
  | stop _ _ ih => exact Bool.or_eq_true_iff.mpr (.inl (ih he))
  | simple => exact absurd he ofExit?_ne_broke
  | breaks kind =>
      exact Tree.breaksLoose_iff.mpr (.inl ⟨kind, Ending.broke.inj he⟩)
  | continues => cases he
  | scope kind _ _ _ ih => exact breaksLoose_of_scope kind (ih he)
  | scope_fails => cases he
  | branch kind _ _ _ ih => exact breaksLoose_of_part (by rw [kind]; rfl) (ih he)
  | branch_fails => cases he
  | switch => exact absurd he behindSwitch_ne_broke
  | switch_fails => cases he
  | selection_fails => cases he
  | label kind has_statement _ ih =>
      exact Tree.breaksLoose_of_mem (by rw [kind]; rfl) (Tree.mem_children_of_child? has_statement)
        (ih (eq_broke_of_behindLabel he))
  | loop _ _ _ ih => cases ih he
  | loop_fails => cases he
  | loop_done => cases he
  | turn_fails => cases he
  | turn _ _ _ _ _ ih => exact ih he
  | last_turn => exact absurd he behindLoop_ne_broke
  | tries kind _ _ ih ih' =>
      rcases broke_of_behindFinally he with he | he
      · exact ih he
      · exact breaksLoose_of_part (by rw [kind]; rfl) (ih' he)
  | uncaught kind _ _ ih => exact breaksLoose_of_part (by rw [kind]; rfl) (ih he)
  | passed => cases he
  | catch_fails => cases he
  | caught kind _ _ has_clause clause_kind _ _ ih =>
      refine Tree.breaksLoose_of_mem (by rw [kind]; rfl) has_clause ?_
      exact breaksLoose_of_part (by rw [clause_kind]; rfl) (ih he)

/-! ### Sequences -/

theorem runs_nil_iff : W.Runs (.sequence []) σ e σ' ↔ e = .normal ∧ σ' = σ := by
  constructor
  · rintro ⟨⟩
    exact ⟨rfl, rfl⟩
  · rintro ⟨rfl, rfl⟩
    exact .nil

/-- Statements run one after the other until one of them does not end normally. -/
theorem runs_append_iff : W.Runs (.sequence (ts ++ us)) σ e σ' ↔
    (∃ σ₁, W.Runs (.sequence ts) σ .normal σ₁ ∧ W.Runs (.sequence us) σ₁ e σ') ∨
      e ≠ .normal ∧ W.Runs (.sequence ts) σ e σ' := by
  induction ts generalizing σ with
  | nil =>
      rw [List.nil_append]
      constructor
      · exact fun h => .inl ⟨σ, .nil, h⟩
      · rintro (⟨σ₁, hnil, h⟩ | ⟨hends, hnil⟩)
        · obtain ⟨-, rfl⟩ := runs_nil_iff.mp hnil
          exact h
        · exact absurd (runs_nil_iff.mp hnil).1 hends
  | cons t ts ih =>
      constructor
      · intro h
        cases h with
        | cons first rest =>
            rcases ih.mp rest with ⟨σ₁, hts, hus⟩ | ⟨hends, hts⟩
            · exact .inl ⟨σ₁, .cons first hts, hus⟩
            · exact .inr ⟨hends, .cons first hts⟩
        | stop ends first => exact .inr ⟨ends, .stop ends first⟩
      · rintro (⟨σ₁, hts, hus⟩ | ⟨hends, hts⟩)
        · cases hts with
          | cons first rest => exact .cons first (ih.mpr (.inl ⟨σ₁, rest, hus⟩))
          | stop ends _ => exact absurd rfl ends
        · cases hts with
          | cons first rest => exact .cons first (ih.mpr (.inr ⟨hends, rest⟩))
          | stop ends first => exact .stop ends first

end World

end ScriptMin
