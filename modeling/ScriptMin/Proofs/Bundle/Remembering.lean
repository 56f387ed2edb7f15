import Mathlib.Data.List.Chain
import ScriptMin.Proofs.Bundle.Reachability

/-!
Remembering changes no answer. The search for transitive dependencies is told again without a
memory, as a function of the universe alone, and a memo is faithful if it holds nothing but what
that search finds. Every question then has one answer, whatever was asked before it, and leaves a
faithful memo behind, also if it fails on the way. The units that are passed on the way to a unit
lead to it, so that a unit among them closes a cycle; a unit that the search has come to an end
for is on no cycle, and therefore is found the same on every way to it.
-/

namespace ScriptMin

open Relation

namespace Universe

variable {u : Universe} {id dependency : String} {found start : NameSet} {path : List String}
  {steps : Nat}

/-! ### Ways -/

/-- A way to a unit: different units of the universe, each of which loads the next one, and the
last one the unit. -/
structure Way (u : Universe) (path : List String) (id : String) : Prop where
  nodup : path.Nodup
  subset : path ⊆ u.ids
  chain : (path ++ [id]).IsChain u.Loads

theorem way_nil (u : Universe) (id : String) : u.Way [] id :=
  ⟨List.nodup_nil, List.nil_subset _, by simp⟩

namespace Way

/-- A way goes on over a load dependency. -/
theorem step (h : u.Way path id) (hid : id ∉ path) (hload : u.Loads id dependency) :
    u.Way (path ++ [id]) dependency where
  nodup := by
    rw [List.nodup_append]
    refine ⟨h.nodup, List.nodup_singleton id, ?_⟩
    rintro a ha b hb rfl
    exact hid (List.mem_singleton.mp hb ▸ ha)
  subset := by
    obtain ⟨found, hfound, -⟩ := hload
    rw [List.append_subset, List.cons_subset]
    exact ⟨h.subset, mem_ids_of_loadedBefore hfound, List.nil_subset _⟩
  chain := by
    rw [List.isChain_append]
    refine ⟨h.chain, List.isChain_singleton dependency, ?_⟩
    simpa using hload

/-- Units on the way lead to where it leads. -/
theorem leads (h : u.Way path id) {x : String} (hx : x ∈ path) : TransGen u.Loads x id := by
  obtain ⟨before, after, rfl⟩ := List.append_of_mem hx
  have hchain := h.chain
  rw [List.append_assoc] at hchain
  have htail : List.IsChain u.Loads (x :: (after ++ [id])) := hchain.right_of_append
  have hpair := (htail.imp fun _ _ h => TransGen.single h).pairwise
  exact (List.pairwise_cons.mp hpair).1 id (by simp)

theorem length_le (h : u.Way path id) : path.length ≤ u.size := length_le_size h.nodup h.subset

end Way

/-! ### The search without a memory -/

/-- Adds what a search finds for each of several units, and the units themselves. -/
def searchAll (search : String → Except DependencyFault NameSet) :
    List String → NameSet → Except DependencyFault NameSet
  | [], found => .ok found
  | id :: rest, found => do
    let nested ← search id
    searchAll search rest ((found.insertAll nested).insert id)

/-- All units that must be loaded before a unit, which is reached over a path. -/
def search (u : Universe) : Nat → List String → String → Except DependencyFault NameSet
  | 0, _, _ => .ok []
  | steps + 1, path, id =>
    if path.contains id then .error (.cycle (path.dropWhile (· ≠ id) ++ [id]))
    else do searchAll (search u steps (path ++ [id])) (← u.loadedBefore id) []

section searchAll

variable {search search' : String → Except DependencyFault NameSet} {ids : List String}

theorem searchAll_cons (id : String) (rest : List String) :
    searchAll search (id :: rest) start =
      search id >>= fun nested => searchAll search rest ((start.insertAll nested).insert id) :=
  rfl

theorem searchAll_congr (h : ∀ d ∈ ids, search d = search' d) :
    searchAll search ids start = searchAll search' ids start := by
  induction ids generalizing start with
  | nil => rfl
  | cons id rest ih =>
      rw [List.forall_mem_cons] at h
      simp only [searchAll_cons, h.1, ih h.2]

/-- Searching for several units succeeds if every single search does. -/
theorem searchAll_ok_iff :
    (∃ found, searchAll search ids start = .ok found) ↔ ∀ d ∈ ids, ∃ nested, search d = .ok nested := by
  induction ids generalizing start with
  | nil => simp [searchAll]
  | cons id rest ih =>
      rw [List.forall_mem_cons, searchAll_cons]
      cases hid : search id with
      | error fault => simp [bind, Except.bind]
      | ok nested => simp [bind, Except.bind, ih]

theorem exists_of_searchAll_error {fault : DependencyFault}
    (h : searchAll search ids start = .error fault) : ∃ d ∈ ids, search d = .error fault := by
  induction ids generalizing start with
  | nil => cases h
  | cons id rest ih =>
      rw [searchAll_cons] at h
      cases hid : search id with
      | error other =>
          rw [hid] at h
          cases h
          exact ⟨id, List.mem_cons_self, hid⟩
      | ok nested =>
          rw [hid] at h
          obtain ⟨d, hd, hfault⟩ := ih h
          exact ⟨d, List.mem_cons_of_mem _ hd, hfault⟩

theorem mem_searchAll {R : String → String → Prop}
    (hsearch : ∀ d ∈ ids, ∀ nested, search d = .ok nested → ∀ x, x ∈ nested ↔ R d x)
    (h : searchAll search ids start = .ok found) (x : String) :
    x ∈ found ↔ x ∈ start ∨ ∃ d ∈ ids, x = d ∨ R d x := by
  induction ids generalizing start with
  | nil =>
      cases h
      simp
  | cons id rest ih =>
      rw [List.forall_mem_cons] at hsearch
      rw [searchAll_cons] at h
      cases hid : search id with
      | error fault =>
          rw [hid] at h
          cases h
      | ok nested =>
          rw [hid] at h
          rw [ih hsearch.2 h, NameSet.mem_insert, NameSet.mem_insertAll, hsearch.1 nested hid,
            List.exists_mem_cons_iff, ← or_assoc (c := x ∈ start), or_comm (b := x ∈ start), or_assoc]

end searchAll

/-! ### What the search finds -/

/-- A search that succeeds has a unit that is new to its way and succeeds for what the unit
loads. -/
theorem search_succ_ok (h : u.search (steps + 1) path id = .ok found) :
    id ∉ path ∧ ∃ before, u.loadedBefore id = .ok before ∧
      searchAll (u.search steps (path ++ [id])) before [] = .ok found := by
  rw [search] at h
  split at h
  · cases h
  · next hid =>
    refine ⟨by simpa using hid, ?_⟩
    cases hbefore : u.loadedBefore id with
    | error fault =>
        rw [hbefore] at h
        cases h
    | ok before =>
        rw [hbefore] at h
        exact ⟨before, rfl, h⟩

theorem search_succ_of_not_mem {before : NameSet} (hid : id ∉ path)
    (hbefore : u.loadedBefore id = .ok before) :
    u.search (steps + 1) path id = searchAll (u.search steps (path ++ [id])) before [] := by
  rw [search, if_neg (by simpa using hid), hbefore]
  rfl

/-- The way is no longer than the universe, so that a search with enough steps takes one. -/
theorem Way.exists_steps (hway : u.Way path id) (hsteps : u.size < steps + path.length) :
    ∃ fewer, steps = fewer + 1 ∧ ∀ d, u.size < fewer + (path ++ [d]).length := by
  have hlength := hway.length_le
  refine ⟨steps - 1, by omega, fun d => ?_⟩
  rw [List.length_append, List.length_singleton]
  omega

/-- Nothing on the way, nor the unit itself, is reached from a unit that a search succeeds for. -/
theorem not_transGen_of_search (hway : u.Way path id) (hsteps : u.size < steps + path.length)
    (h : u.search steps path id = .ok found) {x : String} (hx : x ∈ path ++ [id]) :
    ¬ TransGen u.Loads id x := by
  induction steps generalizing path id found x with
  | zero =>
      obtain ⟨_, hzero, -⟩ := hway.exists_steps hsteps
      cases hzero
  | succ steps ih =>
      obtain ⟨hid, before, hbefore, hall⟩ := search_succ_ok h
      rw [transGen_head_iff]
      rintro ⟨d, hload, hd⟩
      have hway' := hway.step hid hload
      have hsteps' : u.size < steps + (path ++ [id]).length := by
        rw [List.length_append, List.length_singleton]
        omega
      obtain ⟨nested, hnested⟩ := searchAll_ok_iff.mp ⟨found, hall⟩ d ((loads_iff hbefore).mp hload)
      rcases hd with rfl | hd
      · obtain ⟨fewer, rfl, -⟩ := hway'.exists_steps hsteps'
        exact (search_succ_ok hnested).1 hx
      · exact ih hway' hsteps' hnested (List.mem_append_left _ hx) hd

/-- A search that succeeds finds what is reached over one load dependency or more. -/
theorem mem_search (hway : u.Way path id) (hsteps : u.size < steps + path.length)
    (h : u.search steps path id = .ok found) (x : String) :
    x ∈ found ↔ TransGen u.Loads id x := by
  induction steps generalizing path id found x with
  | zero =>
      obtain ⟨_, hzero, -⟩ := hway.exists_steps hsteps
      cases hzero
  | succ steps ih =>
      obtain ⟨hid, before, hbefore, hall⟩ := search_succ_ok h
      have hmem := mem_searchAll (R := TransGen u.Loads) (fun d hd nested hnested x => by
        have hload := (loads_iff hbefore).mpr hd
        refine ih (hway.step hid hload) ?_ hnested x
        rw [List.length_append, List.length_singleton]
        omega) hall x
      rw [hmem, transGen_head_iff]
      simp only [List.not_mem_nil, false_or, loads_iff hbefore]

/-- A search that succeeds on one way finds the same on every other way. -/
theorem search_eq_of_search (hway : u.Way path id) (hsteps : u.size < steps + path.length)
    (h : u.search steps path id = .ok found) {path' : List String} {steps' : Nat}
    (hway' : u.Way path' id) (hsteps' : u.size < steps' + path'.length) :
    u.search steps' path' id = .ok found := by
  induction steps generalizing path id found path' steps' with
  | zero =>
      obtain ⟨_, hzero, -⟩ := hway.exists_steps hsteps
      cases hzero
  | succ steps ih =>
      obtain ⟨hid, before, hbefore, hall⟩ := search_succ_ok h
      -- If the unit were on the other way, it would lead to itself.
      have hid' : id ∉ path' := fun hmem =>
        not_transGen_of_search hway hsteps h (by simp) (hway'.leads hmem)
      obtain ⟨fewer, rfl, hfewer⟩ := hway'.exists_steps hsteps'
      rw [search_succ_of_not_mem hid' hbefore, ← hall]
      refine searchAll_congr fun d hd => ?_
      have hload := (loads_iff hbefore).mpr hd
      obtain ⟨nested, hnested⟩ := searchAll_ok_iff.mp ⟨found, hall⟩ d hd
      rw [hnested]
      refine ih (hway.step hid hload) ?_ hnested (hway'.step hid' hload) (hfewer id)
      rw [List.length_append, List.length_singleton]
      omega

/-- The search finds some units for a unit, on every way to it. -/
def Finds (u : Universe) (id : String) (found : NameSet) : Prop :=
  ∀ steps path, u.Way path id → u.size < steps + path.length → u.search steps path id = .ok found

theorem finds_of_search (hway : u.Way path id) (hsteps : u.size < steps + path.length)
    (h : u.search steps path id = .ok found) : u.Finds id found :=
  fun _ _ => search_eq_of_search hway hsteps h

/-! ### When the search succeeds -/

/-- A unit does not exist, or one that it requires by name does not. -/
def Lacks (u : Universe) (id : String) : Prop :=
  match u.get? id with
  | none => True
  | some unit => ∃ name ∈ unit.manifest.requires, namespaceOf? name = none ∧ ¬ u.contains name

theorem mapM_ok_iff {α β ε : Type} {f : α → Except ε β} {items : List α} :
    (∃ results, items.mapM f = .ok results) ↔ ∀ item ∈ items, ∃ result, f item = .ok result := by
  induction items with
  | nil => simp [pure, Except.pure]
  | cons item rest ih =>
      rw [List.mapM_cons, List.forall_mem_cons, ← ih]
      cases f item with
      | error fault => simp [bind, Except.bind]
      | ok result =>
          cases rest.mapM f with
          | error fault => simp [bind, Except.bind]
          | ok results => simp [bind, Except.bind, pure, Except.pure]

theorem exists_of_mapM_error {α β ε : Type} {f : α → Except ε β} {items : List α} {fault : ε}
    (h : items.mapM f = .error fault) : ∃ item ∈ items, f item = .error fault := by
  induction items with
  | nil => cases h
  | cons item rest ih =>
      rw [List.mapM_cons] at h
      cases hitem : f item with
      | error other =>
          rw [hitem] at h
          cases h
          exact ⟨item, List.mem_cons_self, hitem⟩
      | ok result =>
          rw [hitem] at h
          cases hrest : rest.mapM f with
          | ok results => simp [hrest, bind, Except.bind, pure, Except.pure] at h
          | error other =>
              simp only [hrest, bind, Except.bind, Except.error.injEq] at h
              obtain ⟨found, hmem, hfound⟩ := ih (hrest.trans (congrArg _ h))
              exact ⟨found, List.mem_cons_of_mem _ hmem, hfound⟩

theorem required_ok_iff {name : String} :
    (∃ ids, u.required id name = .ok ids) ↔ (namespaceOf? name = none → u.contains name) := by
  rw [required]
  cases namespaceOf? name with
  | some space => simp
  | none => cases hname : u.contains name <;> simp

/-- What a unit loads is known unless something is lacking. -/
theorem loadedBefore_ok_iff : (∃ before, u.loadedBefore id = .ok before) ↔ ¬ u.Lacks id := by
  rw [loadedBefore, Lacks, dependencies, demand]
  cases u.get? id with
  | none => simp [bind, Except.bind]
  | some unit =>
      have hrequired : (∃ results, unit.manifest.requires.mapM (u.required id) = .ok results) ↔
          ∀ name ∈ unit.manifest.requires, namespaceOf? name = none → u.contains name := by
        simp only [mapM_ok_iff, required_ok_iff]
      cases hmap : unit.manifest.requires.mapM (u.required id) with
      | error fault =>
          rw [hmap] at hrequired
          simp_all [bind, Except.bind]
      | ok results =>
          rw [hmap] at hrequired
          simp_all [bind, Except.bind, pure, Except.pure]

/-- What is lacking is reported as missing. -/
theorem missing_of_loadedBefore {fault : DependencyFault} (h : u.loadedBefore id = .error fault) :
    ∃ name requiredBy, fault = .missing name requiredBy := by
  rw [loadedBefore, dependencies, demand] at h
  cases hget : u.get? id with
  | none =>
      rw [hget] at h
      cases h
      exact ⟨id, none, rfl⟩
  | some unit =>
      rw [hget] at h
      cases hmap : unit.manifest.requires.mapM (u.required id) with
      | ok results => simp [hmap, bind, Except.bind, pure, Except.pure] at h
      | error other =>
          simp only [hmap, bind, Except.bind, Except.error.injEq] at h
          obtain ⟨name, -, hname⟩ := exists_of_mapM_error hmap
          refine ⟨name, some id, ?_⟩
          rw [required] at hname
          split at hname
          · cases hname
          · split at hname
            · cases hname
            · rw [← h, ← Except.error.inj hname]

/-- A search succeeds where nothing is lacking and no unit leads to itself. -/
theorem exists_search (hway : u.Way path id) (hsteps : u.size < steps + path.length)
    (hclear : ∀ x, ReflTransGen u.Loads id x → ¬ u.Lacks x ∧ ¬ TransGen u.Loads x x) :
    ∃ found, u.search steps path id = .ok found := by
  induction steps generalizing path id with
  | zero => exact ⟨[], rfl⟩
  | succ steps ih =>
      have hid : id ∉ path := fun hmem => (hclear id .refl).2 (hway.leads hmem)
      obtain ⟨before, hbefore⟩ := loadedBefore_ok_iff.mpr (hclear id .refl).1
      rw [search_succ_of_not_mem hid hbefore, searchAll_ok_iff]
      intro d hd
      have hload := (loads_iff hbefore).mpr hd
      refine ih (hway.step hid hload) ?_ fun x hx => hclear x (.head hload hx)
      rw [List.length_append, List.length_singleton]
      omega

/-- Where a search succeeds, nothing is lacking, and no unit leads to itself. -/
theorem clear_of_search (hway : u.Way path id) (hsteps : u.size < steps + path.length)
    (h : u.search steps path id = .ok found) {x : String} (hx : ReflTransGen u.Loads id x) :
    ¬ u.Lacks x ∧ ¬ TransGen u.Loads x x := by
  induction steps generalizing path id found with
  | zero =>
      obtain ⟨_, hzero, -⟩ := hway.exists_steps hsteps
      cases hzero
  | succ steps ih =>
      obtain ⟨hid, before, hbefore, hall⟩ := search_succ_ok h
      rcases hx.cases_head with rfl | ⟨d, hload, hx⟩
      · exact ⟨loadedBefore_ok_iff.mp ⟨before, hbefore⟩,
          not_transGen_of_search hway hsteps h (by simp)⟩
      · obtain ⟨nested, hnested⟩ := searchAll_ok_iff.mp ⟨found, hall⟩ d
          ((loads_iff hbefore).mp hload)
        refine ih (hway.step hid hload) ?_ hnested hx
        rw [List.length_append, List.length_singleton]
        omega

/-! ### Cycles -/

/-- Units that load each other in a circle, the first one being repeated at the end. -/
structure IsCycle (u : Universe) (cycle : List String) : Prop where
  closed : ∃ first middle, cycle = first :: middle ++ [first]
  distinct : cycle.dropLast.Nodup
  chain : cycle.IsChain u.Loads

/-- A unit on the way to itself closes a cycle. -/
theorem Way.isCycle (h : u.Way path id) (hid : id ∈ path) :
    u.IsCycle (path.dropWhile (· ≠ id) ++ [id]) := by
  obtain ⟨before, after, rfl⟩ := List.append_of_mem hid
  have hbefore : ∀ x ∈ before, decide (x ≠ id) = true := by
    intro x hx
    have hne := (List.nodup_append.mp h.nodup).2.2 x hx id List.mem_cons_self
    simpa using hne
  have hdrop : (before ++ id :: after).dropWhile (· ≠ id) = id :: after := by
    rw [List.dropWhile_append_of_pos hbefore, List.dropWhile_cons_of_neg (by simp)]
  rw [hdrop]
  refine ⟨⟨id, after, rfl⟩, ?_, ?_⟩
  · rw [List.dropLast_concat]
    exact (List.nodup_append.mp h.nodup).2.1
  · have hchain := h.chain
    rw [List.append_assoc] at hchain
    exact hchain.right_of_append

/-- Units that a search reports to load each other in a circle do so, and they are reached from
every unit that the way and the unit are reached from. -/
theorem isCycle_of_search {cycle : List String} {origin : String} (hway : u.Way path id)
    (hsteps : u.size < steps + path.length)
    (horigin : ∀ x ∈ path ++ [id], ReflTransGen u.Loads origin x)
    (h : u.search steps path id = .error (.cycle cycle)) :
    u.IsCycle cycle ∧ ∀ x ∈ cycle, ReflTransGen u.Loads origin x := by
  induction steps generalizing path id with
  | zero => cases h
  | succ steps ih =>
      by_cases hid : id ∈ path
      · rw [search, if_pos (by simpa using hid)] at h
        cases h
        refine ⟨hway.isCycle hid, fun x hx => horigin x ?_⟩
        rw [List.mem_append] at hx ⊢
        exact hx.imp_left fun hx => (List.dropWhile_sublist _).subset hx
      · cases hbefore : u.loadedBefore id with
        | error fault =>
            rw [search, if_neg (by simpa using hid), hbefore] at h
            obtain ⟨name, requiredBy, rfl⟩ := missing_of_loadedBefore hbefore
            cases h
        | ok before =>
            rw [search_succ_of_not_mem hid hbefore] at h
            obtain ⟨d, hd, hcycle⟩ := exists_of_searchAll_error h
            have hload := (loads_iff hbefore).mpr hd
            refine ih (hway.step hid hload) ?_ ?_ hcycle
            · rw [List.length_append, List.length_singleton]
              omega
            · intro x hx
              rcases List.mem_append.mp hx with hx | hx
              · exact horigin x hx
              · rw [List.mem_singleton.mp hx]
                exact (horigin id (by simp)).tail hload

end Universe

/-! ### Answers -/

/-- A memo holds nothing but what the search finds. -/
structure DependencyMemo.Faithful (u : Universe) (memo : DependencyMemo) : Prop where
  direct : ∀ {id found}, memo.direct.lookup id = some found → u.loadedBefore id = .ok found
  reachable : ∀ {id found}, memo.reachable.lookup id = some found → u.Finds id found

theorem faithful_empty (u : Universe) : DependencyMemo.Faithful u {} := by
  constructor <;> simp

namespace Ordered

variable {α β : Type} {u : Universe} {memo : DependencyMemo}

/-- A computation has an answer and leaves a faithful memo. -/
structure Answers (u : Universe) (x : Ordered α) (memo : DependencyMemo)
    (answer : Except DependencyFault α) : Prop where
  eq : (x.run.run memo).1 = answer
  faithful : (x.run.run memo).2.Faithful u

theorem answers_pure (hm : memo.Faithful u) (a : α) : Answers u (pure a) memo (.ok a) := ⟨rfl, hm⟩

theorem answers_throw (hm : memo.Faithful u) (fault : DependencyFault) :
    Answers u (throw fault : Ordered α) memo (.error fault) :=
  ⟨rfl, hm⟩

theorem answers_liftExcept (hm : memo.Faithful u) (answer : Except DependencyFault α) :
    Answers u (liftExcept answer) memo answer := by
  cases answer with
  | error fault => exact answers_throw hm fault
  | ok a => exact answers_pure hm a

theorem answers_get_bind {f : DependencyMemo → Ordered β} {answer : Except DependencyFault β} :
    Answers u (get >>= f) memo answer ↔ Answers u (f memo) memo answer :=
  ⟨fun h => ⟨h.eq, h.faithful⟩, fun h => ⟨h.eq, h.faithful⟩⟩

theorem answers_modify_bind {edit : DependencyMemo → DependencyMemo} {f : PUnit → Ordered β}
    {answer : Except DependencyFault β} :
    Answers u (modify edit >>= f) memo answer ↔ Answers u (f ⟨⟩) (edit memo) answer :=
  ⟨fun h => ⟨h.eq, h.faithful⟩, fun h => ⟨h.eq, h.faithful⟩⟩

theorem run_bind_ok {x : Ordered α} {f : α → Ordered β} {a : α} {memo' : DependencyMemo}
    (h : x.run.run memo = (.ok a, memo')) : (x >>= f).run.run memo = (f a).run.run memo' := by
  rw [ExceptT.run_bind, StateT.run_bind, h]
  rfl

theorem run_bind_error {x : Ordered α} {f : α → Ordered β} {fault : DependencyFault}
    {memo' : DependencyMemo} (h : x.run.run memo = (.error fault, memo')) :
    (x >>= f).run.run memo = (.error fault, memo') := by
  rw [ExceptT.run_bind, StateT.run_bind, h]
  rfl

theorem Answers.bind {x : Ordered α} {answer : Except DependencyFault α} {f : α → Ordered β}
    {g : α → Except DependencyFault β} (h : Answers u x memo answer)
    (hf : ∀ a memo', answer = .ok a → memo'.Faithful u → Answers u (f a) memo' (g a)) :
    Answers u (x >>= f) memo (answer >>= g) := by
  have hrun : x.run.run memo = (answer, (x.run.run memo).2) := Prod.ext h.eq rfl
  cases answer with
  | error fault =>
      have hbind := run_bind_error (f := f) hrun
      exact ⟨by rw [hbind]; rfl, by rw [hbind]; exact h.faithful⟩
  | ok a =>
      have hbind := run_bind_ok (f := f) hrun
      have hnext := hf a _ rfl h.faithful
      exact ⟨by rw [hbind]; exact hnext.eq, by rw [hbind]; exact hnext.faithful⟩

/-- What is done with an answer besides giving it does not change it. -/
theorem Answers.keep {x : Ordered α} {answer : Except DependencyFault α} {f : α → Ordered α}
    (h : Answers u x memo answer)
    (hf : ∀ a memo', answer = .ok a → memo'.Faithful u → Answers u (f a) memo' (.ok a)) :
    Answers u (x >>= f) memo answer := by
  have hbind := h.bind hf
  rwa [show (answer >>= fun a => Except.ok a) = answer by cases answer <;> rfl] at hbind

/-- A computation has one answer, whatever is remembered. -/
def Steady (u : Universe) (x : Ordered α) : Prop :=
  ∃ answer, ∀ memo, memo.Faithful u → Answers u x memo answer

theorem steady_pure (a : α) : Steady u (pure a) := ⟨.ok a, fun _ hm => answers_pure hm a⟩

theorem Steady.bind {x : Ordered α} {f : α → Ordered β} (h : Steady u x) (hf : ∀ a, Steady u (f a)) :
    Steady u (x >>= f) := by
  obtain ⟨answer, hx⟩ := h
  choose g hg using hf
  exact ⟨answer >>= g, fun memo hm => (hx memo hm).bind fun a memo' _ hm' => hg a memo' hm'⟩

end Ordered

namespace Universe

open Ordered

variable {u : Universe} {memo : DependencyMemo} {id : String} {path : List String} {steps : Nat}

theorem answers_loadDependencies (hm : memo.Faithful u) (id : String) :
    Answers u (u.loadDependencies id) memo (u.loadedBefore id) := by
  rw [loadDependencies, answers_get_bind]
  cases hlook : memo.direct.lookup id with
  | some known =>
      rw [hm.direct hlook]
      exact answers_pure hm known
  | none =>
      refine (answers_liftExcept hm _).keep fun found memo' hfound hm' => ?_
      rw [answers_modify_bind]
      have hmemo : DependencyMemo.Faithful u
          { memo' with direct := (id, found) :: memo'.direct } := by
        refine ⟨?_, hm'.reachable⟩
        intro other known hother
        rw [List.lookup_cons] at hother
        split at hother
        next heq =>
          cases hother
          rw [beq_iff_eq.mp heq]
          exact hfound
        next => exact hm'.direct hother
      exact answers_pure hmemo found

theorem answers_gather {collect : String → Ordered NameSet}
    {search : String → Except DependencyFault NameSet} {ids : List String} {start : NameSet}
    (hcollect : ∀ d ∈ ids, ∀ memo, memo.Faithful u → Answers u (collect d) memo (search d))
    (hm : memo.Faithful u) :
    Answers u (gather collect ids start) memo (searchAll search ids start) := by
  induction ids generalizing memo start with
  | nil => exact answers_pure hm start
  | cons id rest ih =>
      rw [List.forall_mem_cons] at hcollect
      exact (hcollect.1 memo hm).bind fun nested memo' _ hm' => ih hcollect.2 hm'

/-- Collecting with a faithful memo finds what the search finds without one. -/
theorem answers_collect (hway : u.Way path id) (hsteps : u.size < steps + path.length)
    (hm : memo.Faithful u) :
    Answers u (u.collect steps path id) memo (u.search steps path id) := by
  induction steps generalizing path id memo with
  | zero => exact answers_pure hm []
  | succ steps ih =>
      rw [collect, answers_get_bind]
      cases hlook : memo.reachable.lookup id with
      | some known =>
          rw [hm.reachable hlook _ _ hway hsteps]
          exact answers_pure hm known
      | none =>
          by_cases hid : id ∈ path
          · have hcontains : path.contains id = true := by simpa using hid
            rw [search, if_pos hcontains]
            dsimp only
            rw [if_pos hcontains]
            exact answers_throw hm _
          · have hcontains : ¬ path.contains id = true := by simpa using hid
            rw [search, if_neg hcontains]
            dsimp only
            rw [if_neg hcontains]
            refine (answers_loadDependencies hm id).bind fun before memo₁ hbefore hm₁ => ?_
            have hgather : Answers u (gather (u.collect steps (path ++ [id])) before []) memo₁
                (searchAll (u.search steps (path ++ [id])) before []) := by
              refine answers_gather (fun d hd memo hm => ?_) hm₁
              refine ih (hway.step hid ((loads_iff hbefore).mpr hd)) ?_ hm
              rw [List.length_append, List.length_singleton]
              omega
            refine hgather.keep fun found memo₂ hfound hm₂ => ?_
            rw [answers_modify_bind]
            have hsearch : u.search (steps + 1) path id = .ok found := by
              rw [search_succ_of_not_mem hid hbefore, hfound]
            have hmemo : DependencyMemo.Faithful u
                { memo₂ with reachable := (id, found) :: memo₂.reachable } := by
              refine ⟨hm₂.direct, ?_⟩
              intro other known hother
              rw [List.lookup_cons] at hother
              split at hother
              next heq =>
                cases hother
                rw [beq_iff_eq.mp heq]
                exact finds_of_search hway hsteps hsearch
              next => exact hm₂.reachable hother
            exact answers_pure hmemo found

theorem answers_transitiveDependencies (hm : memo.Faithful u) (id : String) :
    Answers u (u.transitiveDependencies id) memo (u.search (u.size + 2) [] id) :=
  answers_collect (way_nil u id) (by simp) hm

/-! ### Questions -/

theorem steady_loadDependencies (id : String) : Steady u (u.loadDependencies id) :=
  ⟨_, fun _ hm => answers_loadDependencies hm id⟩

theorem steady_transitiveDependencies (id : String) : Steady u (u.transitiveDependencies id) :=
  ⟨_, fun _ hm => answers_transitiveDependencies hm id⟩

theorem steady_weigh (ids : List String) : Steady u (u.weigh ids) := by
  induction ids with
  | nil => exact steady_pure []
  | cons id rest ih =>
      exact (steady_transitiveDependencies id).bind fun _ => ih.bind fun _ => steady_pure _

theorem steady_breaksBefore (id : String) (others : List String) :
    Steady u (u.breaksBefore id others) := by
  induction others with
  | nil => exact steady_pure []
  | cons other rest ih =>
      exact (steady_transitiveDependencies other).bind fun _ => ih.bind fun _ => steady_pure _

theorem steady_placeAll {place : String → Layout → Ordered Layout}
    (hplace : ∀ id layout, Steady u (place id layout)) (ids : List String) (layout : Layout) :
    Steady u (placeAll place ids layout) := by
  induction ids generalizing layout with
  | nil => exact steady_pure layout
  | cons id rest ih => exact (hplace id layout).bind ih

theorem steady_place (weights : NameCounts) (depth : Nat) (id : String) (layout : Layout) :
    Steady u (u.place weights depth id layout) := by
  induction depth generalizing id layout with
  | zero => exact steady_pure layout
  | succ depth ih =>
      rw [place]
      split
      · exact steady_pure layout
      · refine (steady_loadDependencies id).bind fun before => ?_
        refine (steady_placeAll ih _ _).bind fun layout => ?_
        refine (steady_breaksBefore id _).bind fun breaks => ?_
        exact (steady_placeAll ih _ _).bind fun layout => steady_pure _

theorem steady_sort (ids : NameSet) : Steady u (u.sort ids) := by
  refine (steady_weigh ids).bind fun weights => ?_
  exact (steady_placeAll (steady_place weights _) _ _).bind fun layout => steady_pure _

/-- A question about the dependencies of a universe. -/
inductive Question where
  | loadDependencies (id : String)
  | transitiveDependencies (id : String)
  | sort (ids : NameSet)

def ask (u : Universe) : Question → Ordered (List String)
  | .loadDependencies id => u.loadDependencies id
  | .transitiveDependencies id => u.transitiveDependencies id
  | .sort ids => u.sort ids

/-- The answers to questions that are asked one after the other, with what is remembered from one
to the next. -/
def replies (u : Universe) :
    List Question → DependencyMemo → List (Except DependencyFault (List String))
  | [], _ => []
  | question :: rest, memo =>
    ((u.ask question).run.run memo).1 :: u.replies rest ((u.ask question).run.run memo).2

def freshReply (u : Universe) (question : Question) : Except DependencyFault (List String) :=
  ((u.ask question).run.run {}).1

theorem steady_ask (question : Question) : Steady u (u.ask question) := by
  cases question with
  | loadDependencies id => exact steady_loadDependencies id
  | transitiveDependencies id => exact steady_transitiveDependencies id
  | sort ids => exact steady_sort ids

theorem replies_eq_map (questions : List Question) (hm : memo.Faithful u) :
    u.replies questions memo = questions.map u.freshReply := by
  induction questions generalizing memo with
  | nil => rfl
  | cons question rest ih =>
      obtain ⟨answer, hanswer⟩ := steady_ask (u := u) question
      have hnow := hanswer memo hm
      rw [replies, List.map_cons, ih hnow.faithful, freshReply, hnow.eq,
        (hanswer {} (faithful_empty u)).eq]

theorem freshReply_transitiveDependencies (id : String) :
    u.freshReply (.transitiveDependencies id) = u.search (u.size + 2) [] id :=
  (answers_transitiveDependencies (faithful_empty u) id).eq

/-- Questions get the answers that they would get as the first ones, whatever has been asked
before them and whether it has failed. The transitive dependencies of a unit are given exactly if
nothing is lacking and no unit leads to itself among those that the unit leads to, and are then
the units reached over one load dependency or more; a reported cycle is one, and the unit leads to
it. -/
theorem replies_eq_freshReplies (u : Universe) (questions : List Question) :
    u.replies questions {} = questions.map u.freshReply ∧
    ∀ id,
      ((∃ found, u.freshReply (.transitiveDependencies id) = .ok found) ↔
        ∀ x, ReflTransGen u.Loads id x → ¬ u.Lacks x ∧ ¬ TransGen u.Loads x x) ∧
      (∀ found, u.freshReply (.transitiveDependencies id) = .ok found →
        ∀ x, x ∈ found ↔ TransGen u.Loads id x) ∧
      (∀ cycle, u.freshReply (.transitiveDependencies id) = .error (.cycle cycle) →
        u.IsCycle cycle ∧ ∀ x ∈ cycle, ReflTransGen u.Loads id x) := by
  refine ⟨replies_eq_map questions (faithful_empty u), fun id => ?_⟩
  have hway := way_nil u id
  have hsteps : u.size < u.size + 2 + ([] : List String).length := by simp
  simp only [freshReply_transitiveDependencies]
  refine ⟨⟨?_, exists_search hway hsteps⟩, ?_, ?_⟩
  · rintro ⟨found, hfound⟩ x hx
    exact clear_of_search hway hsteps hfound hx
  · intro found hfound
    exact mem_search hway hsteps hfound
  · intro cycle hcycle
    refine isCycle_of_search hway hsteps (fun x hx => ?_) hcycle
    rw [List.mem_singleton.mp hx]

end Universe

end ScriptMin
