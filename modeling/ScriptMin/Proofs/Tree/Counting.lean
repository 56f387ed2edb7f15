import ScriptMin.Proofs.Tree.Recording

/-!
Counts of names. The names of a count are in ascending order, so that each of them has one entry, and
what is recorded later adds to it. With the counts go the dotted names and the marks that a scan
records node by node.
-/

namespace ScriptMin

namespace NameCounts

variable {x name : String} {k n : Nat} {counts more : NameCounts} {p : String → Bool}

/-- The names are in ascending order. -/
def Ascending (counts : NameCounts) : Prop := counts.Pairwise fun a b => a.1 < b.1

theorem count_cons : count x ((name, n) :: counts) = if x = name then n else count x counts := by
  rw [count, List.lookup_cons]
  by_cases h : x = name
  · rw [if_pos h, beq_iff_eq.mpr h]
    rfl
  · rw [if_neg h, beq_false_of_ne h]
    rfl

theorem count_eq_zero (h : ∀ entry ∈ counts, x < entry.1) : count x counts = 0 := by
  induction counts with
  | nil => rfl
  | cons entry rest ih =>
      rw [List.forall_mem_cons] at h
      rw [count_cons, if_neg fun heq => String.lt_irrefl _ (heq ▸ h.1), ih h.2]

theorem Ascending.filter (h : counts.Ascending) (p : String × Nat → Bool) :
    Ascending (List.filter p counts) := List.Pairwise.filter p h

theorem Ascending.add (h : counts.Ascending) : (add name k counts).Ascending := by
  induction counts with
  | nil => exact List.pairwise_singleton _ _
  | cons entry rest ih =>
      obtain ⟨other, n⟩ := entry
      obtain ⟨hfirst, hrest⟩ := List.pairwise_cons.mp h
      rw [NameCounts.add]
      split
      case isTrue hlt =>
          refine List.pairwise_cons.mpr ⟨List.forall_mem_cons.mpr ⟨hlt, fun entry hentry => ?_⟩, h⟩
          exact String.lt_trans hlt (hfirst entry hentry)
      case isFalse hnot =>
          split
          case isTrue => exact List.pairwise_cons.mpr ⟨hfirst, hrest⟩
          case isFalse hne =>
              refine List.pairwise_cons.mpr ⟨fun entry hentry => ?_, ih hrest⟩
              rcases mem_add.mp (List.mem_map_of_mem hentry) with heq | hmem
              · rw [heq]
                by_contra hback
                exact hne (String.le_antisymm (String.not_lt.mp hback) (String.not_lt.mp hnot))
              · obtain ⟨old, hold, heq⟩ := List.mem_map.mp hmem
                exact heq ▸ hfirst old hold

/-- Raising the count of a name leaves the other ones. -/
theorem count_add (h : counts.Ascending) :
    (add name k counts).count x = counts.count x + if x = name then k else 0 := by
  induction counts with
  | nil =>
      rw [NameCounts.add, count_cons]
      exact (Nat.zero_add _).symm
  | cons entry rest ih =>
      obtain ⟨other, n⟩ := entry
      obtain ⟨hfirst, hrest⟩ := List.pairwise_cons.mp h
      rw [NameCounts.add]
      split
      case isTrue hlt =>
          rw [count_cons]
          split
          case isTrue heq =>
              have hzero : count x ((other, n) :: rest) = 0 := by
                refine count_eq_zero (List.forall_mem_cons.mpr ⟨heq ▸ hlt, fun entry hentry => ?_⟩)
                exact String.lt_trans (heq ▸ hlt) (hfirst entry hentry)
              rw [hzero, Nat.zero_add]
          case isFalse => rfl
      case isFalse =>
          split
          case isTrue hsame =>
              subst hsame
              rw [count_cons, count_cons]
              split <;> rfl
          case isFalse hne =>
              rw [count_cons, count_cons, ih hrest]
              by_cases hx : x = other
              · rw [if_pos hx, if_pos hx, if_neg fun heq => hne (heq.symm.trans hx)]
                rfl
              · rw [if_neg hx, if_neg hx]

theorem count_filter : count x (List.filter (fun entry => p entry.1) counts) =
    if p x then count x counts else 0 := by
  induction counts with
  | nil => simp [count]
  | cons entry rest ih =>
      obtain ⟨name, n⟩ := entry
      rw [List.filter_cons, count_cons]
      by_cases hname : x = name
      · subst hname
        by_cases hp : p x
        · rw [if_pos hp, if_pos hp, if_pos rfl, count_cons, if_pos rfl]
        · rw [if_neg hp, ih, if_neg hp, if_neg hp]
      · rw [if_neg hname, ← ih]
        split
        · rw [count_cons, if_neg hname]
        · rfl

end NameCounts

namespace Scope

variable {x name : String} {k : Nat} {s nested : Scope}

theorem count_access (h : s.accessed.Ascending) :
    (s.access name k).accesses x = s.accesses x + if x = name then k else 0 :=
  NameCounts.count_add h

/-- A body uses a name as often as it did, and as often as a nested function that it takes in shares
the name. -/
theorem count_absorb (h : s.accessed.Ascending) (hnested : nested.shared.Ascending) :
    (s.absorb nested).accessed.Ascending ∧
      (s.absorb nested).accesses x = s.accesses x + nested.shared.count x := by
  have hfold : ∀ (counts : NameCounts), counts.Ascending → ∀ s : Scope, s.accessed.Ascending →
      (counts.foldl (fun s entry => s.access entry.1 entry.2) s).accessed.Ascending ∧
      (counts.foldl (fun s entry => s.access entry.1 entry.2) s).accesses x =
        s.accesses x + counts.count x := by
    intro counts hcounts
    induction counts with
    | nil => exact fun s hs => ⟨hs, rfl⟩
    | cons entry rest ih =>
        obtain ⟨name, n⟩ := entry
        obtain ⟨hfirst, hrest⟩ := List.pairwise_cons.mp hcounts
        intro s hs
        obtain ⟨hascending, hcount⟩ := ih hrest (s.access name n) hs.add
        refine ⟨hascending, hcount.trans ?_⟩
        rw [count_access hs, NameCounts.count_cons, Nat.add_assoc]
        congr 1
        split
        case isTrue heq => rw [NameCounts.count_eq_zero (heq ▸ hfirst), Nat.add_zero]
        case isFalse => exact Nat.zero_add _
  exact hfold _ hnested s h

theorem count_shared_finish :
    s.finish.shared.count x = if s.isLocal x then 0 else s.accesses x := by
  refine (NameCounts.count_filter (p := fun name => !s.isLocal name)).trans ?_
  cases s.isLocal x <;> rfl

theorem packages_absorb {p : String} :
    p ∈ (s.absorb nested).packages ↔ p ∈ nested.packages ∨ p ∈ s.packages := by
  have hfold : ∀ (counts : NameCounts) (s : Scope),
      (counts.foldl (fun s entry => s.access entry.1 entry.2) s).packages = s.packages := by
    intro counts
    induction counts with
    | nil => exact fun _ => rfl
    | cons entry rest ih => exact fun s => ih (s.access entry.1 entry.2)
  rw [absorb]
  refine NameSet.mem_insertAll.trans (or_congr_right ?_)
  rw [hfold nested.shared s]

theorem hasWith_absorb : (s.absorb nested).hasWith = (s.hasWith || nested.hasWith) := by
  have hfold : ∀ (counts : NameCounts) (s : Scope),
      (counts.foldl (fun s entry => s.access entry.1 entry.2) s).hasWith = s.hasWith := by
    intro counts
    induction counts with
    | nil => exact fun _ => rfl
    | cons entry rest ih => exact fun s => ih (s.access entry.1 entry.2)
  rw [absorb]
  exact congrArg (· || nested.hasWith) (hfold nested.shared s)

theorem mem_packages_finish {p : String} :
    p ∈ s.finish.packages ↔ p ∈ s.packages ∧ ¬ s.isLocal (rootName p) := by
  refine List.mem_filter.trans (and_congr_right fun _ => ?_)
  rw [Bool.not_eq_true', Bool.not_eq_true]

end Scope

namespace Tree

variable {inChain inTail : Bool} {scope : Scope} {t : Tree} {name p : String}

/-- How often a node itself uses a name, or a function the name of a variable around it. -/
def ownUses (name : String) (t : Tree) : Nat :=
  match t.kind with
  | .identifier => if name = t.head.text then 1 else 0
  | .function => t.scope.shared.count name
  | _ => 0

/-- A node adds its own uses of a name to those recorded before. -/
theorem count_recordOwn (h : scope.accessed.Ascending)
    (hnested : t.kind = .function → t.scope.shared.Ascending) :
    (recordOwn inChain inTail t scope).accessed.Ascending ∧
      (recordOwn inChain inTail t scope).accesses name = scope.accesses name + t.ownUses name := by
  by_cases hname : t.kind = .identifier
  · obtain ⟨head, children⟩ := t
    rw [recordOwn, ownUses, show head.kind = .identifier from hname, hname]
    exact ⟨h.add, Scope.count_access h⟩
  by_cases hfunction : t.kind = .function
  · have hascending := hnested hfunction
    rw [ownUses, hfunction]
    obtain ⟨head, children⟩ := t
    rw [recordOwn, show head.kind = .function from hfunction]
    dsimp only
    generalize hstart : (if isDeclaredFunction head then scope.declareAll head.text?.toList
      else scope) = start
    have hsame : start.accessed = scope.accessed := by
      rw [← hstart]
      split <;> rfl
    rw [Scope.accesses, Scope.accesses, ← hsame]
    exact Scope.count_absorb (hsame ▸ h) hascending
  · rw [Scope.accesses, accessed_recordOwn hname hfunction]
    refine ⟨h, ?_⟩
    rw [ownUses]
    split
    case h_1 hkind => exact absurd hkind hname
    case h_2 hkind => exact absurd hkind hfunction
    case h_3 => rfl

/-- Member accesses and functions bring dotted names along. -/
theorem mem_packages_recordOwn : p ∈ (recordOwn inChain inTail t scope).packages ↔
    p ∈ scope.packages ∨ t.kind = .dot ∧ inChain = false ∧ t.dottedName? = some p ∨
      t.kind = .function ∧ p ∈ t.scope.packages := by
  obtain ⟨head, children⟩ := t
  by_cases hdot : head.kind = .dot
  · simp only [recordOwn, hdot, kind, Tree.head, dottedName?, reduceCtorEq, false_and, or_false,
      true_and]
    cases inChain with
    | true => simp
    | false =>
        cases hparts : dottedNameOfParts? children with
        | none => simp
        | some text => simp [Scope.addPackage, NameSet.mem_insert, or_comm, eq_comm]
  by_cases hfunction : head.kind = .function
  · simp only [recordOwn, hfunction, kind, Tree.head, reduceCtorEq, false_and, false_or, true_and]
    rw [Scope.packages_absorb, or_comm]
    refine or_congr_left ?_
    split <;> rfl
  · have hsame : (recordOwn inChain inTail (.node head children) scope).packages =
        scope.packages := by
      rw [recordOwn]
      split
      case h_2 hkind => exact absurd hkind hfunction
      case h_3 hkind => exact absurd hkind hdot
      all_goals first | rfl | (repeat' split) <;> rfl
    simp [hsame, kind, Tree.head, hdot, hfunction]

/-- `with` statements and functions bring the mark along. -/
theorem hasWith_recordOwn : (recordOwn inChain inTail t scope).hasWith ↔ scope.hasWith ∨
    t.kind = .withStmt ∨ t.kind = .function ∧ t.scope.hasWith := by
  obtain ⟨head, children⟩ := t
  by_cases hwith : head.kind = .withStmt
  · simp [recordOwn, kind, Tree.head, hwith]
  by_cases hfunction : head.kind = .function
  · simp only [recordOwn, hfunction, kind, Tree.head, reduceCtorEq, false_or, true_and]
    rw [Scope.hasWith_absorb, Bool.or_eq_true]
    refine or_congr_left ?_
    split <;> rfl
  · have hsame : (recordOwn inChain inTail (.node head children) scope).hasWith =
        scope.hasWith := by
      rw [recordOwn]
      split
      case h_2 hkind => exact absurd hkind hfunction
      case h_10 hkind => exact absurd hkind hwith
      all_goals first | rfl | (repeat' split) <;> rfl
    simp [hsame, kind, Tree.head, hwith, hfunction]

end Tree

end ScriptMin
