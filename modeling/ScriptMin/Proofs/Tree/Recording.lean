import Mathlib.Data.List.Basic
import ScriptMin.Scope

/-!
What a scan records. A node records something of its own and then what is below it, so that a
property of what has been recorded follows from what single nodes do to it.
-/

namespace ScriptMin

namespace NameCounts

variable {x name : String} {count : Nat} {counts : NameCounts}

theorem mem_add : x ∈ (add name count counts).map Prod.fst ↔ x = name ∨ x ∈ counts.map Prod.fst := by
  induction counts with
  | nil => simp [add]
  | cons entry rest ih =>
      obtain ⟨other, n⟩ := entry
      rw [add]
      split
      · simp
      · split
        case isTrue heq => simp [heq]
        case isFalse => simp only [List.map_cons, List.mem_cons, ih, or_left_comm]

end NameCounts

namespace Scope

variable {x name : String} {count : Nat} {names : List String} {s nested : Scope}

/-- A name is used. -/
def Accesses (s : Scope) (name : String) : Prop := name ∈ s.accessed.map Prod.fst

/-- A name is used and not declared. -/
def Shares (s : Scope) (name : String) : Prop := name ∈ s.shared.map Prod.fst

theorem accesses_access : (s.access name count).Accesses x ↔ x = name ∨ s.Accesses x :=
  NameCounts.mem_add

theorem isLocal_iff : s.isLocal x ↔ x ∈ s.declared ∨ x ∈ s.params := by
  rw [isLocal, Bool.or_eq_true, List.contains_iff_mem, List.contains_iff_mem]

/-! ### What a nested function uses -/

theorem declared_absorb : (s.absorb nested).declared = s.declared := by
  have hfold : ∀ (counts : NameCounts) (s : Scope),
      (counts.foldl (fun s entry => s.access entry.1 entry.2) s).declared = s.declared := by
    intro counts
    induction counts with
    | nil => exact fun _ => rfl
    | cons entry rest ih => exact fun s => ih (s.access entry.1 entry.2)
  exact hfold _ _

theorem params_absorb : (s.absorb nested).params = s.params := by
  have hfold : ∀ (counts : NameCounts) (s : Scope),
      (counts.foldl (fun s entry => s.access entry.1 entry.2) s).params = s.params := by
    intro counts
    induction counts with
    | nil => exact fun _ => rfl
    | cons entry rest ih => exact fun s => ih (s.access entry.1 entry.2)
  exact hfold _ _

theorem accesses_absorb : (s.absorb nested).Accesses x ↔ nested.Shares x ∨ s.Accesses x := by
  have hfold : ∀ (counts : NameCounts) (s : Scope),
      (counts.foldl (fun s entry => s.access entry.1 entry.2) s).Accesses x ↔
        x ∈ counts.map Prod.fst ∨ s.Accesses x := by
    intro counts
    induction counts with
    | nil => simp
    | cons entry rest ih =>
        intro s
        rw [List.foldl_cons, ih, accesses_access, List.map_cons, List.mem_cons, or_left_comm, or_assoc]
  exact hfold _ _

/-! ### Conclusions -/

theorem isLocal_finish : s.finish.isLocal = s.isLocal := rfl

theorem shares_finish : s.finish.Shares x ↔ s.Accesses x ∧ ¬ s.isLocal x := by
  rw [Shares, Accesses, finish]
  simp only [List.mem_map, List.mem_filter, Bool.not_eq_true']
  constructor
  · rintro ⟨entry, ⟨hmem, hlocal⟩, rfl⟩
    exact ⟨⟨entry, hmem, rfl⟩, by simp [hlocal]⟩
  · rintro ⟨⟨entry, hmem, rfl⟩, hlocal⟩
    exact ⟨entry, ⟨hmem, by simpa using hlocal⟩, rfl⟩

end Scope

namespace Tree

variable {head : Head} {children ts : List Tree} {inChain inTail : Bool} {role : Role}
  {scope : Scope} {x : String}

def recordOwn (inChain inTail : Bool) : Tree → Scope → Scope
  | .node head children, scope =>
    match head.kind with
    | .identifier => scope.access head.text 1
    | .function =>
      let scope :=
        if isDeclaredFunction head then scope.declareAll head.text?.toList else scope
      scope.absorb (Tree.scope (.node head children))
    | .dot =>
      if inChain then scope
      else match dottedNameOfParts? children with
        | some name => scope.addPackage name
        | none => scope
    | .declaration => scope.declareAll (declarationNames head children)
    | .catchClause =>
      let exception := children.find? fun c => c.head.role == some .exception
      scope.declareAll ((exception.map boundNames).getD [])
    | .assign | .increment | .decrement =>
      scope.modifyAll ((children.head?.map assignedNames).getD [])
    | .forIn =>
      match children.find? fun c => c.head.role == some .iterator with
      | some iterator =>
        if inTail then scope.declareAll iterator.boundNames
        else scope.modifyAll iterator.assignedNames
      | none => scope
    | .withStmt => { scope with hasWith := true }
    | _ => scope

/-- The trees below a node that a scan goes into. -/
def scanned (head : Head) (children : List Tree) : List Tree :=
  match head.kind with
  | .identifier | .function => []
  | .dot => (children[0]?).toList
  | .propertyInit => (children[1]?).toList
  | .declaration => (children.find? fun c => c.head.role == some .initializer).toList
  | .catchClause =>
    (children.find? fun c => c.head.role == some .guard).toList ++
      (children.find? fun c => c.head.role == some .block).toList
  | _ => children

def recordAll (kind : Kind) (ts : List Tree) (scope : Scope) : Scope :=
  ts.foldl (fun scope t => record (kind == .dot) (kind == .compTail) t scope) scope

theorem recordFirst_eq :
    recordFirst inChain ts scope = (ts[0]?).toList.foldl
      (fun s t => record inChain false t s) scope := by
  cases ts <;> rfl

theorem recordSecond_eq :
    recordSecond ts scope = (ts[1]?).toList.foldl (fun s t => record false false t s) scope := by
  rcases ts with _ | ⟨_, _ | _⟩ <;> rfl

theorem recordRole_eq : recordRole role ts scope =
    (ts.find? fun c => c.head.role == some role).toList.foldl (fun s t => record false false t s)
      scope := by
  induction ts with
  | nil => rfl
  | cons t rest ih =>
      rw [recordRole, List.find?_cons]
      by_cases h : t.head.role = some role
      · rw [if_pos h, beq_iff_eq.mpr h]
        rfl
      · rw [if_neg h, beq_false_of_ne h]
        exact ih

theorem recordRest_eq {kind : Kind} : recordRest kind ts scope =
    ts.foldl (fun s t => record false (kind == .compTail) t s) scope := by
  induction ts generalizing scope with
  | nil => rfl
  | cons t rest ih => exact ih

theorem recordList_eq {kind : Kind} (h : kind ≠ .dot) :
    recordList kind ts scope = recordAll kind ts scope := by
  have hdot : (kind == .dot) = false := beq_false_of_ne h
  cases ts with
  | nil => rfl
  | cons t rest =>
      rw [recordList, recordRest_eq, recordAll, hdot]
      rfl

/-- A node records something of its own, and then what is below it. -/
theorem record_eq : record inChain inTail (.node head children) scope =
    recordAll head.kind (scanned head children)
      (recordOwn inChain inTail (.node head children) scope) := by
  rw [record]
  split
  case h_1 hkind =>
      rw [recordOwn, scanned, hkind]
      rfl
  case h_2 hkind =>
      rw [recordOwn, scanned, hkind, Tree.scope, if_pos hkind]
      rfl
  case h_3 hkind =>
      rw [recordOwn, scanned, hkind, recordFirst_eq]
      rfl
  case h_4 hkind =>
      rw [recordOwn, scanned, hkind, recordSecond_eq]
      rfl
  case h_5 hkind =>
      rw [recordOwn, scanned, hkind, recordRole_eq]
      rfl
  case h_6 hkind =>
      rw [recordOwn, scanned, hkind, recordRole_eq, recordRole_eq, recordAll, List.foldl_append]
      rfl
  -- From here on a scan goes into all children.
  case h_12 =>
      rw [recordList_eq ‹_›]
      simp only [recordOwn, scanned]
  all_goals
    rename_i hkind
    rw [recordOwn, scanned, hkind]
    exact recordList_eq (by decide)

/-! ### What a node itself records -/

def ownNames (inTail : Bool) : Tree → List String
  | .node head children =>
    match head.kind with
    | .function => if isDeclaredFunction head then head.text?.toList else []
    | .declaration => declarationNames head children
    | .catchClause =>
      ((children.find? fun c => c.head.role == some .exception).map boundNames).getD []
    | .forIn =>
      if inTail then
        ((children.find? fun c => c.head.role == some .iterator).map boundNames).getD []
      else []
    | _ => []

variable {t : Tree}

theorem declared_recordOwn : (recordOwn inChain inTail t scope).declared =
    scope.declared.insertAll (ownNames inTail t) := by
  obtain ⟨head, children⟩ := t
  rw [recordOwn]
  split
  case h_2 hkind =>
      rw [ownNames, hkind, Scope.declared_absorb]
      dsimp only
      split <;> rfl
  case h_3 hkind =>
      rw [ownNames, hkind]
      split
      · rfl
      · split <;> rfl
  case h_9 hkind =>
      rw [ownNames, hkind]
      cases children.find? fun c => c.head.role == some .iterator with
      | none => cases inTail <;> rfl
      | some iterator => cases inTail <;> rfl
  case h_11 =>
      simp only [ownNames]
      rfl
  all_goals
    rename_i hkind
    rw [ownNames, hkind]
    rfl

theorem params_recordOwn : (recordOwn inChain inTail t scope).params = scope.params := by
  obtain ⟨head, children⟩ := t
  rw [recordOwn]
  split
  case h_2 =>
      rw [Scope.params_absorb]
      split <;> rfl
  all_goals first | rfl | (repeat' split) <;> rfl

/-- Only names and functions use names. -/
theorem accessed_recordOwn (hname : t.kind ≠ .identifier) (hfunction : t.kind ≠ .function) :
    (recordOwn inChain inTail t scope).accessed = scope.accessed := by
  obtain ⟨head, children⟩ := t
  rw [recordOwn]
  split
  case h_1 hkind => exact absurd hkind hname
  case h_2 hkind => exact absurd hkind hfunction
  all_goals first | rfl | (repeat' split) <;> rfl

theorem accesses_recordOwn_identifier (h : t.kind = .identifier) :
    (recordOwn inChain inTail t scope).Accesses x ↔ x = t.head.text ∨ scope.Accesses x := by
  obtain ⟨head, children⟩ := t
  rw [recordOwn, show head.kind = .identifier from h]
  exact Scope.accesses_access

theorem accesses_recordOwn_function (h : t.kind = .function) :
    (recordOwn inChain inTail t scope).Accesses x ↔ t.scope.Shares x ∨ scope.Accesses x := by
  obtain ⟨head, children⟩ := t
  rw [recordOwn, show head.kind = .function from h]
  refine Scope.accesses_absorb.trans (or_congr_right ?_)
  split <;> rfl

/-- What has been used stays used. -/
theorem accesses_recordOwn (h : scope.Accesses x) :
    (recordOwn inChain inTail t scope).Accesses x := by
  by_cases hname : t.kind = .identifier
  · exact (accesses_recordOwn_identifier hname).mpr (.inr h)
  by_cases hfunction : t.kind = .function
  · exact (accesses_recordOwn_function hfunction).mpr (.inr h)
  rwa [Scope.Accesses, accessed_recordOwn hname hfunction]

/-! ### Bodies -/

theorem recordBody_eq : recordBody ts scope =
    match ts.find? fun c => c.head.role == some .body with
    | some body => recordList body.kind body.children scope
    | none => scope := by
  induction ts with
  | nil => rfl
  | cons t rest ih =>
      obtain ⟨head, children⟩ := t
      rw [recordBody, List.find?_cons]
      by_cases h : head.role = some .body
      · rw [if_pos h, show ((node head children).head.role == some .body) = true from
          beq_iff_eq.mpr h]
        rfl
      · rw [if_neg h, show ((node head children).head.role == some .body) = false from
          beq_false_of_ne h]
        exact ih

/-! ### Patterns -/

theorem boundNamesList_eq (ts : List Tree) : boundNamesList ts = ts.flatMap boundNames := by
  induction ts with
  | nil => rfl
  | cons t rest ih => rw [boundNamesList, ih, List.flatMap_cons]

theorem boundNamesOfFields_eq (ts : List Tree) :
    boundNamesOfFields ts = ts.flatMap fun t => ((t.nth? 1).map boundNames).getD [] := by
  induction ts with
  | nil => rfl
  | cons t rest ih =>
      rcases t with ⟨head, _ | ⟨key, _ | ⟨value, values⟩⟩⟩ <;>
        simp [boundNamesOfFields, boundNamesOfFirst, ih, nth?, Tree.children]

theorem mem_boundNamesList : x ∈ boundNamesList ts ↔ ∃ t ∈ ts, x ∈ t.boundNames := by
  rw [boundNamesList_eq, List.mem_flatMap]

theorem mem_boundNamesOfFields :
    x ∈ boundNamesOfFields ts ↔ ∃ t ∈ ts, ∃ value, t.nth? 1 = some value ∧ x ∈ value.boundNames := by
  rw [boundNamesOfFields_eq, List.mem_flatMap]
  refine exists_congr fun t => and_congr_right fun _ => ?_
  cases t.nth? 1 <;> simp

end Tree

end ScriptMin
