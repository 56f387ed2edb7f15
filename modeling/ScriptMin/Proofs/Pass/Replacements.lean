import Mathlib.Data.List.Perm.Subperm
import Mathlib.Order.Bounds.Basic
import Mathlib.Order.Nat
import ScriptMin.Pass.Locals
import ScriptMin.Proofs.Text.Short

/-!
Replacements of local names. Every local name gets a generated name that no other local name of
the function gets, that is not reserved, and under which the function knows nothing of the
outside. Other names keep the replacements that they have outside.
-/

namespace ScriptMin.Locals

variable {taken names : List String} {name x y : String} {start : Nat} {outer : Replacements}

/-! ### Generated names -/

theorem le_nextFree : start ≤ nextFree taken start := by
  rw [nextFree]
  cases hfind : (List.range' start (taken.length + 1)).find? fun i =>
      !taken.contains (Text.shortName i) with
  | none => exact Nat.le_refl _
  | some i => exact (List.mem_range'_1.mp (List.mem_of_find?_eq_some hfind)).1

/-- More generated names are looked at than there are taken ones. -/
theorem shortName_nextFree : Text.shortName (nextFree taken start) ∉ taken := by
  rw [nextFree]
  cases hfind : (List.range' start (taken.length + 1)).find? fun i =>
      !taken.contains (Text.shortName i) with
  | some i => simpa using List.find?_some hfind
  | none =>
      have hall : ∀ i ∈ List.range' start (taken.length + 1), Text.shortName i ∈ taken := by
        intro i hi
        simpa using List.find?_eq_none.mp hfind i hi
      have hnodup : ((List.range' start (taken.length + 1)).map Text.shortName).Nodup :=
        List.Nodup.map Text.shortName_injective List.nodup_range'
      have hlength := (List.subperm_of_subset hnodup (List.forall_mem_map.mpr hall)).length_le
      rw [List.length_map, List.length_range'] at hlength
      exact absurd hlength (Nat.not_succ_le_self _)

/-- The search ends at the first generated name that is not taken. -/
theorem isLeast_nextFree :
    IsLeast {i | start ≤ i ∧ Text.shortName i ∉ taken} (nextFree taken start) := by
  refine ⟨⟨le_nextFree, shortName_nextFree⟩, ?_⟩
  rintro j ⟨hj, hfree⟩
  rw [nextFree]
  cases hfind : (List.range' start (taken.length + 1)).find? fun i =>
      !taken.contains (Text.shortName i) with
  | none => exact hj
  | some i =>
      obtain ⟨-, -, hbefore⟩ := List.find?_range'_eq_some.mp hfind
      by_contra hlt
      have htaken := hbefore j hj (Nat.not_le.mp hlt)
      simp only [Bool.not_not, List.contains_iff_mem] at htaken
      exact hfree htaken

/-- What a search finds is the first index whose name is not taken. -/
theorem isLeast_of_search {i j : Nat} (h : Search taken i j) :
    IsLeast {k | i ≤ k ∧ Text.shortName k ∉ taken} j := by
  induction h with
  | found hfree => exact ⟨⟨Nat.le_refl _, hfree⟩, fun k hk => hk.1⟩
  | @next i j htaken _ ih =>
      obtain ⟨⟨hle, hfree⟩, hfirst⟩ := ih
      refine ⟨⟨Nat.le_of_succ_le hle, hfree⟩, fun k hk => hfirst ⟨?_, hk.2⟩⟩
      refine Nat.lt_of_le_of_ne hk.1 fun heq => hk.2 ?_
      rwa [← heq]

/-- A search ends when some name from there on is not taken. -/
theorem exists_search {i k : Nat} (hle : i ≤ k) (hfree : Text.shortName k ∉ taken) :
    ∃ j, Search taken i j := by
  induction hle using Nat.decreasingInduction with
  | self => exact ⟨k, .found hfree⟩
  | of_succ i _ ih =>
      by_cases htaken : Text.shortName i ∈ taken
      · exact ih.imp fun _ => .next htaken
      · exact ⟨i, .found htaken⟩

/-- The search for a name ends, whatever is taken, and the bound on the number of its rounds
is never met. -/
theorem search_iff {i : Nat} : Search taken start i ↔ i = nextFree taken start := by
  obtain ⟨j, hj⟩ := exists_search (@le_nextFree taken start) shortName_nextFree
  have heq : j = nextFree taken start := (isLeast_of_search hj).unique isLeast_nextFree
  exact ⟨fun h => (isLeast_of_search h).unique isLeast_nextFree, fun h => h ▸ heq ▸ hj⟩

/-! ### Handing out names -/

/-- The names that are handed out are the first generated names that are not taken. -/
theorem exists_assignNames : ∃ indices : List Nat, indices.length = names.length ∧
    indices.Pairwise (· < ·) ∧ (∀ i ∈ indices, start ≤ i ∧ Text.shortName i ∉ taken) ∧
    (∀ i ∈ indices, ∀ j, start ≤ j → j < i → Text.shortName j ∉ taken → j ∈ indices) ∧
    assignNames taken names start outer =
      (names.zip (indices.map Text.shortName)).reverse ++ outer := by
  induction names generalizing start outer with
  | nil => exact ⟨[], rfl, .nil, by simp, by simp, rfl⟩
  | cons name rest ih =>
      obtain ⟨⟨hstart, hfree⟩, hfirst⟩ := @isLeast_nextFree taken start
      obtain ⟨indices, hlength, hascending, hbehind, hnext, hassign⟩ :=
        @ih (nextFree taken start + 1) ((name, Text.shortName (nextFree taken start)) :: outer)
      refine ⟨nextFree taken start :: indices, ?_, ?_, ?_, ?_, ?_⟩
      · rw [List.length_cons, List.length_cons, hlength]
      · exact .cons (fun i hi => (hbehind i hi).1) hascending
      · rw [List.forall_mem_cons]
        exact ⟨⟨hstart, hfree⟩, fun i hi =>
          ⟨hstart.trans (Nat.le_of_succ_le (hbehind i hi).1), (hbehind i hi).2⟩⟩
      · intro i hi j hj hlt hfreej
        have hle := hfirst ⟨hj, hfreej⟩
        rcases Nat.eq_or_lt_of_le hle with rfl | hlater
        · exact List.mem_cons_self
        · rcases List.mem_cons.mp hi with rfl | hi
          · exact absurd hlt (Nat.not_lt.mpr hle)
          · exact List.mem_cons_of_mem _ (hnext i hi j hlater hlt hfreej)
      · rw [assignNames, hassign, List.map_cons, List.zip_cons_cons, List.reverse_cons,
          List.append_assoc, List.singleton_append]

theorem lookup_assignNames_of_not_mem (h : name ∉ names) :
    (assignNames taken names start outer).lookup name = outer.lookup name := by
  induction names generalizing start outer with
  | nil => rfl
  | cons other rest ih =>
      rw [List.mem_cons, not_or] at h
      rw [assignNames, ih h.2, List.lookup_cons, beq_false_of_ne h.1]

/-- A name gets a generated name that is not taken. -/
theorem lookup_assignNames (h : name ∈ names) :
    ∃ i, start ≤ i ∧ Text.shortName i ∉ taken ∧
      (assignNames taken names start outer).lookup name = some (Text.shortName i) := by
  induction names generalizing start outer with
  | nil => cases h
  | cons other rest ih =>
      rw [assignNames]
      by_cases hrest : name ∈ rest
      · obtain ⟨i, hi, hfree, heq⟩ := ih hrest
        exact ⟨i, le_nextFree.trans (Nat.le_of_succ_le hi), hfree, heq⟩
      · obtain rfl := (List.mem_cons.mp h).resolve_right hrest
        refine ⟨nextFree taken start, le_nextFree, shortName_nextFree, ?_⟩
        rw [lookup_assignNames_of_not_mem hrest, List.lookup_cons_self]

/-- The index goes up from name to name, so that no two names get the same one. -/
theorem lookup_assignNames_inj (hx : x ∈ names) (hy : y ∈ names)
    (heq : (assignNames taken names start outer).lookup x =
      (assignNames taken names start outer).lookup y) : x = y := by
  induction names generalizing start outer with
  | nil => cases hx
  | cons other rest ih =>
      rw [assignNames] at heq
      have hfirst : ∀ {a b : String}, a ∉ rest → a = other → b ∈ rest →
          (assignNames taken rest (nextFree taken start + 1)
            ((other, Text.shortName (nextFree taken start)) :: outer)).lookup a ≠
          (assignNames taken rest (nextFree taken start + 1)
            ((other, Text.shortName (nextFree taken start)) :: outer)).lookup b := by
        rintro a b ha rfl hb hab
        obtain ⟨i, hi, -, hlookup⟩ := @lookup_assignNames taken rest b (nextFree taken start + 1)
          ((a, Text.shortName (nextFree taken start)) :: outer) hb
        rw [lookup_assignNames_of_not_mem ha, List.lookup_cons_self, hlookup] at hab
        have := Text.shortName_inj (Option.some_inj.mp hab)
        omega
      by_cases hxrest : x ∈ rest <;> by_cases hyrest : y ∈ rest
      · exact ih hxrest hyrest heq
      · exact absurd heq.symm (hfirst hyrest ((List.mem_cons.mp hy).resolve_right hyrest) hxrest)
      · exact absurd heq (hfirst hxrest ((List.mem_cons.mp hx).resolve_right hxrest) hyrest)
      · exact ((List.mem_cons.mp hx).resolve_right hxrest).trans
          ((List.mem_cons.mp hy).resolve_right hyrest).symm

/-! ### Replacements inside a function -/

variable {scope : Scope}

theorem mem_byUse : name ∈ byUse scope ↔ scope.isLocal name := by
  rw [byUse, List.mem_mergeSort, NameSet.mem_ofList, Scope.isLocal, List.mem_append,
    Bool.or_eq_true, List.contains_iff_mem, List.contains_iff_mem]

def renamed (replacements : Replacements) (name : String) : String :=
  (replacements.lookup name).getD name

theorem lookup_replacementsIn_of_not_isLocal (h : ¬ scope.isLocal name) :
    (replacementsIn scope outer).lookup name = outer.lookup name :=
  lookup_assignNames_of_not_mem (mem_byUse.not.mpr h)

/-- A local name gets a name that is neither reserved nor the name of anything outside that the
function uses. -/
theorem lookup_replacementsIn (h : scope.isLocal name) :
    ∃ new, (replacementsIn scope outer).lookup name = some new ∧ new ∉ unusable ∧
      ∀ other ∈ scope.shared, new ≠ renamed outer other.1 := by
  obtain ⟨i, -, hfree, hlookup⟩ := @lookup_assignNames
    (unusable ++ scope.shared.map fun other => renamed outer other.1) _ _ 0 outer (mem_byUse.mpr h)
  rw [List.mem_append, not_or] at hfree
  exact ⟨_, hlookup, hfree.1, fun other hother heq =>
    hfree.2 (heq ▸ List.mem_map_of_mem (f := fun other => renamed outer other.1) hother)⟩

theorem lookup_replacementsIn_inj (hx : scope.isLocal x) (hy : scope.isLocal y)
    (heq : (replacementsIn scope outer).lookup x = (replacementsIn scope outer).lookup y) :
    x = y :=
  lookup_assignNames_inj (mem_byUse.mpr hx) (mem_byUse.mpr hy) heq

theorem renamed_replacementsIn_inj (hx : scope.isLocal x) (hy : scope.isLocal y)
    (heq : renamed (replacementsIn scope outer) x = renamed (replacementsIn scope outer) y) :
    x = y := by
  obtain ⟨newX, hnewX, -⟩ := @lookup_replacementsIn _ outer _ hx
  obtain ⟨newY, hnewY, -⟩ := @lookup_replacementsIn _ outer _ hy
  rw [renamed, renamed, hnewX, hnewY] at heq
  exact lookup_replacementsIn_inj hx hy (hnewX.trans ((congrArg some heq).trans hnewY.symm))

/-! ### The supply of names -/

/-- The generated names are all texts of letters, each with one index and shorter ones first. The
search for a name ends at the first one that is neither unusable nor blocked, whatever is blocked,
and a function hands out different such names to its local names, in the order of their indices. -/
theorem shortName_enumerates :
    Set.BijOn Text.shortName Set.univ Text.letterNames ∧
    (∀ i j, i < j → (Text.shortName i).length ≤ (Text.shortName j).length) ∧
    (∀ (blocked : List String) (start : Nat),
      IsLeast {i | start ≤ i ∧ Text.shortName i ∉ unusable ∧ Text.shortName i ∉ blocked}
        (nextFree (unusable ++ blocked) start) ∧
      ∀ i, Search (unusable ++ blocked) start i ↔ i = nextFree (unusable ++ blocked) start) ∧
    ∀ (scope : Scope) (outer : Replacements),
      let blocked := scope.shared.map fun other => renamed outer other.1
      ∃ indices : List Nat, indices.length = (byUse scope).length ∧ indices.Pairwise (· < ·) ∧
        (∀ i ∈ indices, Text.shortName i ∉ unusable ∧ Text.shortName i ∉ blocked) ∧
        (∀ i ∈ indices, ∀ j < i, Text.shortName j ∉ unusable → Text.shortName j ∉ blocked →
          j ∈ indices) ∧
        (indices.map Text.shortName).Nodup ∧
        replacementsIn scope outer =
          ((byUse scope).zip (indices.map Text.shortName)).reverse ++ outer := by
  refine ⟨Text.bijOn_shortName, fun i j h => Text.length_shortName_mono (Nat.le_of_lt h), ?_, ?_⟩
  · intro blocked start
    refine ⟨?_, fun i => search_iff⟩
    simpa only [List.mem_append, not_or] using @isLeast_nextFree (unusable ++ blocked) start
  · intro scope outer blocked
    obtain ⟨indices, hlength, hascending, hfree, hfirst, hassign⟩ :=
      @exists_assignNames (unusable ++ blocked) (byUse scope) 0 outer
    simp only [List.mem_append, not_or] at hfree hfirst
    refine ⟨indices, hlength, hascending, fun i hi => (hfree i hi).2, ?_, ?_, hassign⟩
    · exact fun i hi j hlt hunusable hblocked =>
        hfirst i hi j (Nat.zero_le j) hlt ⟨hunusable, hblocked⟩
    · exact List.Nodup.map Text.shortName_injective (hascending.imp Nat.ne_of_lt)

end ScriptMin.Locals
