import ScriptMin.Proofs.Pass.Evaluation
import ScriptMin.Proofs.Pass.Soundness
import ScriptMin.Proofs.Store.References

/-!
What scopes account for. Besides the references to each name, a scope tells the dotted names that
reach its body from the outside in, whether `eval` is named, and whether there is a `with` statement.
Whatever passes have run on a script, a scan gives the script and every function below it a scope
that accounts for all of this.
-/

namespace ScriptMin

namespace NameCounts

variable {name : String} {k : Nat} {counts : NameCounts}

/-- The entries of a count are the names that are counted, each with its count. -/
theorem mem_iff (h : counts.Ascending) (hpositive : counts.Positive) :
    (name, k) ∈ counts ↔ 0 < k ∧ counts.count name = k := by
  induction counts with
  | nil =>
      refine iff_of_false List.not_mem_nil ?_
      rintro ⟨hk, heq⟩
      exact Nat.ne_of_gt hk heq.symm
  | cons entry rest ih =>
      obtain ⟨other, n⟩ := entry
      obtain ⟨hfirst, hrest⟩ := List.pairwise_cons.mp h
      rw [Positive, List.forall_mem_cons] at hpositive
      rw [List.mem_cons, count_cons, ih hrest hpositive.2, Prod.mk.injEq]
      by_cases heq : name = other
      · rw [if_pos heq, count_eq_zero (heq ▸ hfirst)]
        have := hpositive.1
        simp only [heq, true_and]
        omega
      · simp [heq]

end NameCounts

namespace Store

variable {s : Store} {owner F d : NodeId} {name p : String}

theorem reaches_none_iff : s.Reaches (fun _ => False) F d ↔ s.Within d F :=
  ⟨Reaches.within, fun h => ⟨h, fun _ _ _ _ _ => not_false⟩⟩

section

variable (hs : s.Forest) (h : s.Sound) (howner : s.OwnsBody owner)

include hs h howner

/-! ### Dotted names -/

/-- A member access that is not the object of another one. -/
def EndsChain (s : Store) (d : NodeId) : Prop := s.kind d = .dot ∧ s.isMember d = false

theorem mem_packages_recorded : p ∈ (s.recorded owner).packages ↔ ∃ d, s.Meets owner d ∧
    (s.EndsChain d ∧ (s.view d).dottedName? = some p ∨
      s.kind d = .function ∧ ¬ s.BindsName d (Scope.rootName p) ∧ p ∈ (s.recorded d).packages) := by
  have hstart : (s.startScope owner).packages = [] := by
    rw [startScope]
    split <;> rfl
  have hown : ∀ x ∈ s.met owner, ∀ scope, p ∈ (s.recordMet scope x).packages ↔
      p ∈ scope.packages ∨ (s.EndsChain x ∧ (s.view x).dottedName? = some p ∨
        s.kind x = .function ∧ ¬ s.BindsName x (Scope.rootName p) ∧
          p ∈ (s.recorded x).packages) := by
    intro x _ scope
    rw [recordMet, Tree.mem_packages_recordOwn, kind_view, EndsChain, and_assoc]
    refine or_congr_right (or_congr_right (and_congr_right fun hkind => ?_))
    rw [BindsName, ← isLocal_scope hs h (.inl hkind), scope_view hs h (.inl hkind),
      Scope.mem_packages_finish, Scope.isLocal_finish, and_comm]
  rw [recorded_eq_foldl hs h howner]
  refine (foldl_recordMet_iff (P := fun scope => p ∈ scope.packages) hown).trans ?_
  rw [hstart, or_iff_right List.not_mem_nil]
  exact exists_congr fun d => and_congr_left fun _ => mem_met hs

/-- A body has the dotted names of the chains that reach it. -/
theorem mem_packages_scope : p ∈ (s.view owner).scope.packages ↔
    ¬ s.BindsName owner (Scope.rootName p) ∧
      ∃ d, s.EndsChain d ∧ (s.view d).dottedName? = some p ∧
        s.Reaches (fun G => s.BindsName G (Scope.rootName p)) owner d := by
  have hiff := iff_exists_reaches (P := fun G => p ∈ (s.recorded G).packages)
    (fun d => s.EndsChain d ∧ (s.view d).dottedName? = some p)
    (fun G => s.BindsName G (Scope.rootName p)) hs h
    (fun G hG => mem_packages_recorded hs h hG)
    (fun G d hG hd hinside => hinside.meets h hG (by rw [hd.1.1]; rfl))
    (fun d hd howner => by rcases howner with hkind | hkind <;> simp [hd.1.1] at hkind) howner
  rw [scope_view hs h howner, Scope.mem_packages_finish, hiff, and_comm, BindsName,
    ← isLocal_scope hs h howner, scope_view hs h howner, Scope.isLocal_finish]
  simp only [and_assoc]

/-! ### Marks -/

/-- A body is marked for `eval` if a variable of that name is in it or below. -/
theorem usesEval_iff : (s.view owner).scope.usesEval ↔
    ∃ x, s.IsVariable x ∧ s.text x = "eval" ∧ s.Within x owner := by
  have hiff := iff_exists_reaches (P := fun G => (s.view G).scope.usesEval)
    (fun d => s.IsVariable d ∧ s.text d = "eval") (fun _ => False) hs h ?_
    (fun G d hG hd hinside => hd.1.meets h hG hinside)
    (fun d hd howner => by rcases howner with hkind | hkind <;> simp [hd.1.kind_eq] at hkind) howner
  · rw [hiff]
    simp only [reaches_none_iff, and_assoc]
  · intro G hG
    refine (usesEval_scope hs h hG).trans (exists_congr fun d => and_congr_right fun hd => ?_)
    rw [not_false_eq_true, true_and]
    refine or_congr_left (and_congr_left fun _ => ?_)
    exact ⟨hd.isVariable h hG, IsVariable.kind_eq⟩

/-- A body is marked for `with` if there is such a statement in it or below. -/
theorem hasWith_iff : (s.view owner).scope.hasWith ↔
    ∃ d, s.kind d = .withStmt ∧ s.Within d owner := by
  have hiff := iff_exists_reaches (P := fun G => (s.view G).scope.hasWith)
    (fun d => s.kind d = .withStmt) (fun _ => False) hs h ?_
    (fun G d hG hd hinside => hinside.meets h hG (by rw [hd]; rfl))
    (fun d hd howner => by rcases howner with hkind | hkind <;> simp [hd] at hkind) howner
  · rw [hiff]
    simp only [reaches_none_iff]
  · intro G hG
    have hstart : (s.startScope G).hasWith = false := by
      rw [startScope]
      split <;> rfl
    have hown : ∀ x ∈ s.met G, ∀ scope, (s.recordMet scope x).hasWith ↔ scope.hasWith ∨
        (s.kind x = .withStmt ∨ s.kind x = .function ∧ ¬ False ∧ (s.view x).scope.hasWith) := by
      intro x _ scope
      rw [recordMet, Tree.hasWith_recordOwn, kind_view, not_false_eq_true, true_and]
    rw [scope_view hs h hG, recorded_eq_foldl hs h hG]
    refine (foldl_recordMet_iff (P := fun scope => scope.hasWith) hown).trans ?_
    rw [hstart, or_iff_right Bool.false_ne_true]
    exact exists_congr fun d => and_congr_left fun _ => mem_met hs

/-! ### Names -/

theorem accesses_eq_zero_iff :
    (s.view owner).scope.accesses name = 0 ↔ ∀ x, ¬ s.Refers owner name x := by
  rw [← Nat.cast_inj (R := ℕ∞), ← encard_refers hs h howner, Nat.cast_zero, Set.encard_eq_zero]
  exact Set.eq_empty_iff_forall_notMem

theorem mem_unused_iff : name ∈ (s.view owner).scope.unused ↔
    s.BindsName owner name ∧ ∀ x, ¬ s.Refers owner name x := by
  rw [BindsName, ← isLocal_scope hs h howner, ← accesses_eq_zero_iff hs h howner,
    scope_view hs h howner]
  refine NameSet.mem_ofList.trans (List.mem_filter.trans ?_)
  rw [List.mem_append, Scope.isLocal_finish, Scope.isLocal_iff, beq_iff_eq]
  rfl

end

/-- A scope tells which names a body binds, how often the body and the functions in it refer to each
name, and which of its names are shared, unused or dotted. -/
structure Accounts (s : Store) (F : NodeId) (scope : Scope) : Prop where
  isLocal : ∀ name, scope.isLocal name ↔ s.BindsName F name
  accesses : ∀ name, {x | s.Refers F name x}.encard = scope.accesses name
  accessed : ∀ name k, (name, k) ∈ scope.accessed ↔ 0 < k ∧ scope.accesses name = k
  shared : ∀ name k, (name, k) ∈ scope.shared ↔ (name, k) ∈ scope.accessed ∧ ¬ s.BindsName F name
  unused : ∀ name, name ∈ scope.unused ↔ s.BindsName F name ∧ ∀ x, ¬ s.Refers F name x
  packages : ∀ p, p ∈ scope.packages ↔ ¬ s.BindsName F (Scope.rootName p) ∧
    ∃ d, s.EndsChain d ∧ (s.view d).dottedName? = some p ∧
      s.Reaches (fun G => s.BindsName G (Scope.rootName p)) F d
  usesEval : scope.usesEval ↔ ∃ x, s.IsVariable x ∧ s.text x = "eval" ∧ s.Within x F
  hasWith : scope.hasWith ↔ ∃ d, s.kind d = .withStmt ∧ s.Within d F

theorem accounts_view (hs : s.Forest) (h : s.Sound) (howner : s.OwnsBody owner) :
    s.Accounts owner (s.view owner).scope where
  isLocal _ := isLocal_scope hs h howner
  accesses _ := encard_refers hs h howner
  accessed name k := by
    rw [scope_view hs h howner]
    exact NameCounts.mem_iff (ascending_recorded hs h howner) (positive_recorded hs h howner)
  shared name k := by
    rw [BindsName, ← isLocal_scope hs h howner, scope_view hs h howner, Scope.isLocal_finish]
    refine List.mem_filter.trans (and_congr_right fun _ => ?_)
    rw [Bool.not_eq_true', Bool.not_eq_true]
  unused _ := mem_unused_iff hs h howner
  packages _ := mem_packages_scope hs h howner
  usesEval := usesEval_iff hs h howner
  hasWith := hasWith_iff hs h howner

end Store

open Store

/-- Whatever passes have run on a script, a scan gives the script and every function below it a scope
that accounts for the references, chains and statements in its body and in the functions nested
there. -/
theorem accounts_scanTree {source : String} {line : Nat} {t : Tree}
    (hparse : parseScript source line = .ok t) (transforms : List Transform) :
    let s := transforms.foldl Transform.run (.ofTree t)
    ∀ F, s.Owner F → s.Within F s.root →
      ∃ scope, s.scanTree.scope? F = some scope ∧ s.Accounts F scope := by
  intro s F hF hwithin
  have h : s.Sound := sound_of_parseScript hparse transforms
  have hs : s.Forest := Transform.forest_foldl_run (forest_ofTree t) transforms
  exact ⟨_, scope?_scanTree hs h hF hwithin, accounts_view hs h (h.ownsBody hF)⟩

/-- A function in a function that uses a parameter of the outer one and a name of neither. -/
def nestedUses : String := "function f(a){return function(b){return a+b+c.d}}"

theorem accounts_scanTree_nestedUses :
    ∃ t, parseScript nestedUses 1 = .ok t ∧
      let s := Store.ofTree t
      s.Owner 1 ∧ s.Within 1 s.root ∧
        ∃ scope, s.scanTree.scope? 1 = some scope ∧ s.Accounts 1 scope ∧
          {x | s.Refers 1 "a" x}.encard = 1 := by
  -- The script is parsed once for all that is looked up.
  have hlookup : (parseScript nestedUses 1).toOption.isSome ∧
      let s := Store.ofTree (treeOf nestedUses)
      s.kind 1 = .function ∧ s.parent? 1 = some s.root ∧
        (s.scanTree.scope? 1).map (·.accesses "a") = some 1 := by
    decide +kernel
  obtain ⟨hsome, hkind, hparent, hcount⟩ := hlookup
  have hparse := parseScript_treeOf hsome
  have howner : (Store.ofTree (treeOf nestedUses)).Owner 1 := .inr hkind
  have hwithin : (Store.ofTree (treeOf nestedUses)).Within 1 (Store.ofTree (treeOf nestedUses)).root :=
    within_of_parent hparent
  obtain ⟨scope, hscope, haccounts⟩ := accounts_scanTree hparse [] 1 howner hwithin
  refine ⟨_, hparse, howner, hwithin, scope, hscope, haccounts, ?_⟩
  rw [List.foldl_nil] at hscope
  rw [hscope] at hcount
  exact (haccounts.accesses "a").trans (congrArg Nat.cast (Option.some_inj.mp hcount))

end ScriptMin
