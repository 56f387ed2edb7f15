import ScriptMin.Proofs.Bundle.LoadOrder
import ScriptMin.Proofs.Bundle.Remembering

/-!
Load dependencies and breaks together. A unit must follow its load dependencies and the units
it breaks with, apart from those that depend on it. If these demands do not run in a circle, no
unit is passed over while it is laid out, and the order meets all of them at once, whatever was
asked before and whichever way the weights have the units taken up.
-/

namespace ScriptMin.Universe

open Relation Ordered

variable {u : Universe} {units order : List String} {memo memo' : DependencyMemo}

/-! ### Memos that questions leave behind -/

/-- What is remembered after questions have been asked one after the other. -/
def memoAfter (u : Universe) (questions : List Question) : DependencyMemo :=
  questions.foldl (fun memo question => ((u.ask question).run.run memo).2) {}

theorem faithful_memoAfter (u : Universe) (questions : List Question) :
    (u.memoAfter questions).Faithful u := by
  have step : ∀ memo : DependencyMemo, memo.Faithful u →
      (questions.foldl (fun memo question => ((u.ask question).run.run memo).2) memo).Faithful u := by
    induction questions with
    | nil => exact fun memo hm => hm
    | cons question rest ih =>
        intro memo hm
        obtain ⟨answer, hanswer⟩ := steady_ask (u := u) question
        exact ih _ (hanswer memo hm).faithful
  exact step {} (faithful_empty u)

/-- What the search finds tells the truth about the universe. -/
theorem sound_of_faithful (hm : memo.Faithful u) : memo.Sound u where
  direct := hm.direct
  reachable := by
    intro id found hlook
    have hsearch := hm.reachable hlook (u.size + 1) [] (way_nil u id) (by simp)
    exact mem_search (way_nil u id) (by simp) hsearch
  known := by
    intro id found hlook
    have hsearch := hm.reachable hlook (u.size + 1) [] (way_nil u id) (by simp)
    obtain ⟨-, before, hbefore, -⟩ := search_succ_ok hsearch
    exact ⟨before, hbefore⟩

/-- Units can be weighed only if their transitive dependencies are given. -/
theorem exists_reply_of_weigh {ids : List String} {weights : NameCounts} (hm : memo.Faithful u)
    (h : (u.weigh ids).Runs memo weights memo') :
    ∀ id ∈ ids, ∃ found, u.freshReply (.transitiveDependencies id) = .ok found := by
  induction ids generalizing memo memo' weights with
  | nil => simp
  | cons id rest ih =>
      simp only [weigh, runs_bind, runs_pure] at h
      obtain ⟨found, middle, hid, more, last, hrest, -, -⟩ := h
      have hanswer := answers_transitiveDependencies hm id
      have hfound : u.search (u.size + 2) [] id = .ok found := by
        rw [← hanswer.eq, hid]
      have hmiddle : middle.Faithful u := by
        have hfaithful := hanswer.faithful
        rwa [hid] at hfaithful
      rw [List.forall_mem_cons]
      refine ⟨⟨found, ?_⟩, ih hmiddle hrest⟩
      rw [freshReply_transitiveDependencies, hfound]

/-! ### Demands on the order -/

/-- A unit must stand behind another one: it loads the other one, or it breaks with the other
one, which does not depend on it. -/
def MustFollow (u : Universe) (units : List String) (id other : String) : Prop :=
  id ∈ units ∧ other ∈ units ∧
    ((∃ found, u.freshReply (.loadDependencies id) = .ok found ∧ other ∈ found) ∨
      (other ≠ id ∧ other ∈ u.breaksOf id ∧
        ∃ found, u.freshReply (.transitiveDependencies other) = .ok found ∧ id ∉ found))

theorem freshReply_loadDependencies (u : Universe) (id : String) :
    u.freshReply (.loadDependencies id) = u.loadedBefore id :=
  (answers_loadDependencies (faithful_empty u) id).eq

theorem mem_freshReply_transitiveDependencies {id x : String} {found : NameSet}
    (h : u.freshReply (.transitiveDependencies id) = .ok found) :
    x ∈ found ↔ TransGen u.Loads id x := by
  rw [freshReply_transitiveDependencies] at h
  exact mem_search (way_nil u id) (by simp) h x

theorem MustFollow.follows {id other : String} (h : u.MustFollow units id other) :
    u.Follows units id other := by
  obtain ⟨-, hother, ⟨found, hfound, hmem⟩ | ⟨-, hbreak, found, hfound, hfree⟩⟩ := h
  · rw [freshReply_loadDependencies] at hfound
    exact ⟨hother, .inl ⟨found, hfound, hmem⟩⟩
  · refine ⟨hother, .inr ⟨hbreak, fun hlead => hfree ?_⟩⟩
    exact (mem_freshReply_transitiveDependencies hfound).mpr hlead

/-- The layout follows no unit but those it must follow and the unit itself. -/
theorem Follows.mustFollow {id other : String}
    (hknown : ∀ id ∈ units, ∃ found, u.freshReply (.transitiveDependencies id) = .ok found)
    (hid : id ∈ units) (hne : other ≠ id) (h : u.Follows units id other) :
    u.MustFollow units id other := by
  obtain ⟨hother, ⟨found, hfound, hmem⟩ | ⟨hbreak, hfree⟩⟩ := h
  · exact ⟨hid, hother, .inl ⟨found, by rw [freshReply_loadDependencies, hfound], hmem⟩⟩
  · obtain ⟨found, hfound⟩ := hknown other hother
    refine ⟨hid, hother, .inr ⟨hne, hbreak, found, hfound, fun hmem => hfree ?_⟩⟩
    exact (mem_freshReply_transitiveDependencies hfound).mp hmem

/-- A chain that the layout follows is a chain of demands once its loops are left out. -/
theorem LeadsTo.mustFollow {id other : String}
    (hknown : ∀ id ∈ units, ∃ found, u.freshReply (.transitiveDependencies id) = .ok found)
    (hid : id ∈ units) (h : u.LeadsTo units id other) :
    other ∈ units ∧ ReflTransGen (u.MustFollow units) id other := by
  induction h with
  | refl => exact ⟨hid, .refl⟩
  | @tail middle last hlead hfollows ih =>
      obtain ⟨hmiddle, hchain⟩ := ih
      refine ⟨hfollows.1, ?_⟩
      by_cases hne : last = middle
      · rwa [hne]
      · exact hchain.tail (hfollows.mustFollow hknown hmiddle hne)

/-! ### The order meets the demands -/

/-- Sorted units are laid out, all of them. -/
theorem exists_laid_of_sort (hm : memo.Sound u) (h : (u.sort units).Runs memo order memo') :
    ∃ layout, u.Laid units layout ∧ layout.placed = order ∧ ∀ id ∈ units, id ∈ order := by
  obtain ⟨start, hstart, hrun⟩ := sort_runs hm h
  simp only [sortFrom, runs_bind, runs_pure] at hrun
  obtain ⟨weights, memo₁, hweigh, layout, memo₂, hplace, rfl, rfl⟩ := hrun
  obtain ⟨hm₁, hkeys, -⟩ := weigh_runs hm hweigh
  obtain ⟨layout', memo₂', hplace', -, he⟩ :=
    layout_total hkeys hm₁ hstart.subset (laid_empty u units) rfl
  obtain ⟨rfl, -⟩ := hplace.unique hplace'
  refine ⟨layout, he.laid, rfl, fun id hid => ?_⟩
  exact (he.covers id (hstart.mem_iff.mpr hid)).resolve_right (by simp)

/-- If the demands on some units do not run in a circle, every unit stands behind all units
that it must follow. -/
theorem sort_precedes_of_acyclic (u : Universe) (history : List Question) {units order : List String}
    (h : ((u.sort units).run.run (u.memoAfter history)).1 = .ok order)
    (hacyclic : ∀ id, ¬ TransGen (u.MustFollow units) id id) :
    order.Nodup ∧ ∀ id other, u.MustFollow units id other → Precedes other id order := by
  have hfaithful := faithful_memoAfter u history
  have hrun := runs_of_fst h
  obtain ⟨layout, hl, rfl, hall⟩ := exists_laid_of_sort (sound_of_faithful hfaithful) hrun
  have hknown : ∀ id ∈ units, ∃ found, u.freshReply (.transitiveDependencies id) = .ok found := by
    simp only [sort, runs_bind] at hrun
    obtain ⟨weights, memo₁, hweigh, -⟩ := hrun
    exact exists_reply_of_weigh hfaithful hweigh
  refine ⟨hl.placed_nodup, fun id other hmust => ?_⟩
  refine hl.precedes (hall id hmust.1) hmust.follows fun hlead => ?_
  -- A way back from the other unit would close a circle of demands.
  have hback := (hlead.mustFollow hknown hmust.2.1).2
  exact hacyclic id (TransGen.head' hmust hback)

/-- Four units: the last one requires the second and breaks with the third, the second one
requires the first, and the first one breaks with the third. -/
def braided : Universe := ⟨[
  { id := "a", manifest := { breaks := ["c"] } },
  { id := "b", manifest := { requires := ["a"] } },
  { id := "c" },
  { id := "d", manifest := { requires := ["b"], breaks := ["c"] } }]⟩

def braidedPlace (id : String) : Nat := ["c", "a", "b", "d"].idxOf id

theorem braidedPlace_lt {id other : String}
    (h : braided.MustFollow ["a", "b", "c", "d"] id other) : braidedPlace other < braidedPlace id := by
  have ha : braided.loadedBefore "a" = .ok [] := by cbv
  have hb : braided.loadedBefore "b" = .ok ["a"] := by cbv
  have hc : braided.loadedBefore "c" = .ok [] := by cbv
  have hd : braided.loadedBefore "d" = .ok ["b"] := by cbv
  have hother : braided.Loads id other ∨ other ∈ braided.breaksOf id :=
    h.follows.2.imp_right And.left
  have hid : id ∈ ["a", "b", "c", "d"] := h.1
  simp only [List.mem_cons, List.not_mem_nil, or_false] at hid
  rcases hid with rfl | rfl | rfl | rfl
  · rw [loads_iff ha, show braided.breaksOf "a" = ["c"] from rfl] at hother
    obtain rfl : other = "c" := by simpa using hother
    decide
  · rw [loads_iff hb, show braided.breaksOf "b" = [] from rfl] at hother
    obtain rfl : other = "a" := by simpa using hother
    decide
  · rw [loads_iff hc, show braided.breaksOf "c" = [] from rfl] at hother
    simp at hother
  · rw [loads_iff hd, show braided.breaksOf "d" = ["c"] from rfl] at hother
    obtain rfl | rfl : other = "b" ∨ other = "c" := by simpa using hother
    · decide
    · decide

theorem braided_acyclic (id : String) :
    ¬ TransGen (braided.MustFollow ["a", "b", "c", "d"]) id id := by
  have hlt : ∀ other, TransGen (braided.MustFollow ["a", "b", "c", "d"]) id other →
      braidedPlace other < braidedPlace id := by
    intro other h
    induction h with
    | single hmust => exact braidedPlace_lt hmust
    | tail _ hmust ih => exact (braidedPlace_lt hmust).trans ih
  exact fun h => Nat.lt_irrefl _ (hlt id h)

theorem braided_sort_precedes :
    ∃ order, ((braided.sort ["a", "b", "c", "d"]).run.run
        (braided.memoAfter [.transitiveDependencies "d"])).1 = .ok order ∧
      braided.MustFollow ["a", "b", "c", "d"] "a" "c" ∧ Precedes "c" "a" order ∧
      braided.MustFollow ["a", "b", "c", "d"] "d" "b" ∧ Precedes "b" "d" order := by
  have hrun : ((braided.sort ["a", "b", "c", "d"]).run.run
      (braided.memoAfter [.transitiveDependencies "d"])).1 = .ok ["c", "a", "b", "d"] := by cbv
  have h := (sort_precedes_of_acyclic braided _ hrun braided_acyclic).2
  have hbreak : braided.MustFollow ["a", "b", "c", "d"] "a" "c" :=
    ⟨by decide, by decide, .inr ⟨by decide, by decide, [], by cbv, by decide⟩⟩
  have hload : braided.MustFollow ["a", "b", "c", "d"] "d" "b" :=
    ⟨by decide, by decide, .inl ⟨["b"], by cbv, by decide⟩⟩
  exact ⟨_, hrun, hbreak, h _ _ hbreak, hload, h _ _ hload⟩

end ScriptMin.Universe
