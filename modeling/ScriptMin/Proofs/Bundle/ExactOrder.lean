import Mathlib.Data.Set.Card
import ScriptMin.Proofs.Bundle.AcyclicOrder
import ScriptMin.Proofs.Bundle.Closure

/-!
The order of units, told exactly. Units can be sorted if and only if the transitive dependencies
of every one of them are given, and sorting them neither loses nor repeats a unit. A unit that
loads another one has more transitive dependencies than that one, so that going through the units
by their number lays out everything a unit follows before the unit itself is taken up. Where no
unit breaks with another one the layout therefore keeps the order in which it takes up the units.
-/

namespace ScriptMin.Universe

open Relation Ordered

variable {u : Universe} {units : List String} {memo memo' : DependencyMemo}

/-! ### Counting transitive dependencies -/

noncomputable def loadCount (u : Universe) (id : String) : Nat := {x | TransGen u.Loads id x}.ncard

/-- A unit comes before another one by the number of its transitive dependencies, and by its id
if these numbers are equal. -/
def Lighter (u : Universe) (id other : String) : Prop :=
  u.loadCount id < u.loadCount other ∨ u.loadCount id = u.loadCount other ∧ id < other

theorem sorted_searchAll {search : String → Except DependencyFault NameSet} {ids : List String}
    {start found : NameSet} (h : searchAll search ids start = .ok found)
    (hstart : start.Pairwise (· < ·)) : found.Pairwise (· < ·) := by
  induction ids generalizing start with
  | nil =>
      cases h
      exact hstart
  | cons id rest ih =>
      rw [searchAll_cons] at h
      cases hid : search id with
      | error fault =>
          rw [hid] at h
          cases h
      | ok nested =>
          rw [hid] at h
          exact ih h (NameSet.sorted_insert (NameSet.sorted_insertAll hstart))

theorem sorted_search {steps : Nat} {path : List String} {id : String} {found : NameSet}
    (h : u.search steps path id = .ok found) : found.Pairwise (· < ·) := by
  cases steps with
  | zero =>
      cases h
      exact .nil
  | succ steps =>
      obtain ⟨-, before, -, hall⟩ := search_succ_ok h
      exact sorted_searchAll hall .nil

/-- The units that are reached, each once. -/
theorem reached_eq_toFinset {id : String} {found : NameSet}
    (h : u.freshReply (.transitiveDependencies id) = .ok found) :
    {x | TransGen u.Loads id x} = (found.toFinset : Set String) := by
  ext x
  simp [mem_freshReply_transitiveDependencies h]

theorem length_eq_loadCount {id : String} {found : NameSet}
    (h : u.freshReply (.transitiveDependencies id) = .ok found) :
    found.length = u.loadCount id := by
  have hsorted : found.Pairwise (· < ·) := by
    rw [freshReply_transitiveDependencies] at h
    exact sorted_search h
  rw [loadCount, reached_eq_toFinset h, Set.ncard_coe_finset,
    List.toFinset_card_of_nodup (NameSet.nodup_of_sorted hsorted)]

/-- A unit has more transitive dependencies than a unit that it loads. -/
theorem loadCount_lt {id dependency : String} {found : NameSet}
    (h : u.freshReply (.transitiveDependencies id) = .ok found) (hload : u.Loads id dependency) :
    u.loadCount dependency < u.loadCount id := by
  have hclear : ¬ TransGen u.Loads dependency dependency :=
    (((replies_eq_freshReplies u []).2 id).1.mp ⟨found, h⟩ dependency (.single hload)).2
  have hfinite : {x | TransGen u.Loads id x}.Finite := by
    rw [reached_eq_toFinset h]
    exact Finset.finite_toSet _
  refine Set.ncard_lt_ncard ⟨fun x hx => .head hload hx, fun hsub => ?_⟩ hfinite
  exact hclear (hsub (.single hload))

/-! ### Weights -/

/-- The transitive dependencies of some units are given. -/
def AllGiven (u : Universe) (ids : List String) : Prop :=
  ∀ id ∈ ids, ∃ found, u.freshReply (.transitiveDependencies id) = .ok found

/-- The weight of a unit is the number of its transitive dependencies. -/
theorem weigh_total {ids : List String} (hm : memo.Faithful u) (h : u.AllGiven ids) :
    ∃ weights memo', (u.weigh ids).Runs memo weights memo' ∧
      ∀ id ∈ ids, weights.count id = u.loadCount id := by
  induction ids generalizing memo with
  | nil => exact ⟨[], memo, by simp [weigh], by simp⟩
  | cons id rest ih =>
      rw [AllGiven, List.forall_mem_cons] at h
      obtain ⟨⟨found, hfound⟩, hrest⟩ := h
      have hanswer := answers_transitiveDependencies hm id
      rw [← freshReply_transitiveDependencies, hfound] at hanswer
      obtain ⟨weights, memo', hrun, hcount⟩ := ih hanswer.faithful hrest
      refine ⟨(id, found.length) :: weights, memo', ?_, fun other hother => ?_⟩
      · simp only [weigh, runs_bind, runs_pure]
        exact ⟨found, _, runs_of_fst hanswer.eq, weights, memo', hrun, rfl, rfl⟩
      · rw [NameCounts.count, List.lookup_cons]
        by_cases heq : other = id
        · rw [heq, beq_self_eq_true]
          exact length_eq_loadCount hfound
        · rw [beq_false_of_ne heq]
          exact hcount other ((List.mem_cons.mp hother).resolve_left heq)

theorem not_sublist_swap {a b : String} {ids : List String} (hnodup : ids.Nodup)
    (h : [a, b].Sublist ids) : ¬ [b, a].Sublist ids := by
  induction ids with
  | nil => cases h
  | cons id rest ih =>
      obtain ⟨hid, hnodup⟩ := List.nodup_cons.mp hnodup
      intro hswap
      cases h with
      | cons _ h =>
          cases hswap with
          | cons _ hswap => exact ih hnodup h hswap
          | cons_cons _ _ => exact hid (h.subset (by simp))
      | cons_cons _ hb =>
          cases hswap with
          | cons _ hswap => exact hid (hswap.subset (by simp))
          | cons_cons _ _ => exact hid (hb.subset (by simp))

/-- Units in ascending order are taken up by their number of transitive dependencies, those with
equally many in ascending order. -/
theorem pairwise_byWeight {weights : NameCounts} {ids : List String}
    (hids : ids.Pairwise (· < ·)) (hcount : ∀ id ∈ ids, weights.count id = u.loadCount id) :
    (byWeight weights ids).Pairwise u.Lighter := by
  have htrans : ∀ a b c : String, decide (weights.count a ≤ weights.count b) →
      decide (weights.count b ≤ weights.count c) → decide (weights.count a ≤ weights.count c) := by
    simp only [decide_eq_true_eq]
    exact fun a b c => Nat.le_trans
  have htotal : ∀ a b : String, decide (weights.count a ≤ weights.count b) ||
      decide (weights.count b ≤ weights.count a) := by
    simp only [Bool.or_eq_true, decide_eq_true_eq]
    exact fun a b => Nat.le_total _ _
  have hkept : (ids.filter weights.has).Pairwise (· < ·) := hids.filter _
  have hperm := List.mergeSort_perm (ids.filter weights.has)
    fun a b => decide (weights.count a ≤ weights.count b)
  have hnodup := hperm.nodup_iff.mpr (NameSet.nodup_of_sorted hkept)
  rw [List.pairwise_iff_forall_sublist]
  intro a b hab
  have hmem : ∀ x ∈ [a, b], x ∈ ids.filter weights.has := fun x hx =>
    hperm.mem_iff.mp (hab.subset hx)
  have ha := hmem a (by simp)
  have hb := hmem b (by simp)
  have hle : weights.count a ≤ weights.count b := by
    have hsorted := List.pairwise_mergeSort htrans htotal (ids.filter weights.has)
    exact of_decide_eq_true (List.pairwise_iff_forall_sublist.mp hsorted hab)
  rw [hcount a (List.mem_filter.mp ha).1, hcount b (List.mem_filter.mp hb).1] at hle
  rcases Nat.lt_or_eq_of_le hle with hlt | heq
  · exact .inl hlt
  refine .inr ⟨heq, ?_⟩
  by_contra hnot
  -- The sort is stable, so that it would keep the other unit in front of this one.
  have hne : b ≠ a := by
    rintro rfl
    exact not_sublist_swap hnodup hab hab
  have hlt : b < a := Std.lt_of_le_of_ne hnot hne
  have hsub : [b, a].Sublist (ids.filter weights.has) := by
    refine List.sublist_of_subperm_of_pairwise (List.subperm_of_subset ?_ ?_)
      (List.pairwise_pair.mpr hlt) hkept
    · exact List.nodup_cons.mpr ⟨by simpa using hne, List.nodup_singleton a⟩
    · exact List.cons_subset.mpr ⟨hb, List.cons_subset.mpr ⟨ha, List.nil_subset _⟩⟩
  have hweight : decide (weights.count b ≤ weights.count a) := by
    rw [hcount a (List.mem_filter.mp ha).1, hcount b (List.mem_filter.mp hb).1, heq]
    exact decide_eq_true (Nat.le_refl _)
  exact not_sublist_swap hnodup hab (List.pair_sublist_mergeSort htrans htotal hweight hsub)

/-! ### Units that are laid out -/

theorem breaksBefore_subset {id : String} {others found : List String}
    (h : (u.breaksBefore id others).Runs memo found memo') : found ⊆ others := by
  induction others generalizing memo memo' found with
  | nil =>
      simp only [breaksBefore, runs_pure] at h
      exact h.1 ▸ List.Subset.refl _
  | cons other rest ih =>
      simp only [breaksBefore, runs_bind, runs_pure] at h
      obtain ⟨known, memo₁, -, more, memo₂, hrest, rfl, -⟩ := h
      split
      · exact List.subset_cons_of_subset _ (ih hrest)
      · exact List.cons_subset_cons _ (ih hrest)

theorem placeAll_subset {place : String → Layout → Ordered Layout} {ids : List String}
    {layout layout' : Layout} (hids : ids ⊆ units)
    (hplace : ∀ id ∈ units, ∀ {memo mid layout' memo'}, (place id mid).Runs memo layout' memo' →
      mid.placed ⊆ units → layout'.placed ⊆ units)
    (h : (placeAll place ids layout).Runs memo layout' memo') (hl : layout.placed ⊆ units) :
    layout'.placed ⊆ units := by
  induction ids generalizing memo layout with
  | nil =>
      simp only [placeAll, runs_pure] at h
      exact h.1 ▸ hl
  | cons id rest ih =>
      simp only [placeAll, runs_bind] at h
      obtain ⟨mid, memo₁, hid, hrest⟩ := h
      rw [List.cons_subset] at hids
      exact ih hids.2 hrest (hplace id hids.1 hid hl)

/-- Only units with a weight are laid out. -/
theorem place_subset {weights : NameCounts} (hw : weights.map Prod.fst = units) {depth : Nat}
    {id : String} {layout layout' : Layout} (hid : id ∈ units)
    (h : (u.place weights depth id layout).Runs memo layout' memo') (hl : layout.placed ⊆ units) :
    layout'.placed ⊆ units := by
  induction depth generalizing id layout layout' memo memo' with
  | zero =>
      simp only [place, runs_pure] at h
      exact h.1 ▸ hl
  | succ depth ih =>
      rw [place] at h
      split at h
      · rw [runs_pure] at h
        exact h.1 ▸ hl
      · simp only [runs_bind, runs_pure] at h
        obtain ⟨before, memo₁, -, mid, memo₂, hmid, breaks, memo₃, hbreaks, last, memo₄, hlast, rfl,
          -⟩ := h
        have hweighed : ∀ ids, byWeight weights ids ⊆ units := fun ids x hx =>
          hw ▸ (mem_byWeight.mp hx).2
        have hbroken : breaks ⊆ units := fun x hx => hweighed _ (breaksBefore_subset hbreaks hx)
        have hsub := placeAll_subset (hweighed before) (fun id hid _ _ _ _ => ih hid) hmid hl
        have hsub := placeAll_subset hbroken (fun id hid _ _ _ _ => ih hid) hlast hsub
        exact List.append_subset.mpr ⟨hsub, List.cons_subset.mpr ⟨hid, List.nil_subset _⟩⟩

/-- Sorting adds no unit. -/
theorem sort_subset {order : List String} (hm : memo.Sound u)
    (h : (u.sort units).Runs memo order memo') : order ⊆ units := by
  simp only [sort, runs_bind, runs_pure] at h
  obtain ⟨weights, memo₁, hweigh, layout, memo₂, hplace, rfl, -⟩ := h
  obtain ⟨-, hkeys, -⟩ := weigh_runs hm hweigh
  exact placeAll_subset (fun x hx => (mem_byWeight.mp hx).1)
    (fun id hid _ _ _ _ => place_subset hkeys hid) hplace (List.nil_subset _)

/-! ### Layouts without breaks -/

section

variable {weights : NameCounts} {depth : Nat} {id : String} {ids : List String} {layout : Layout}

/-- A unit that is laid out or active is passed over. -/
theorem place_met (h : id ∈ layout.placed ∨ id ∈ layout.active) :
    (u.place weights depth id layout).Runs memo layout memo := by
  cases depth with
  | zero => simp [place]
  | succ depth => simp [place, h]

theorem placeAll_met (h : ∀ id ∈ ids, id ∈ layout.placed ∨ id ∈ layout.active) :
    (placeAll (u.place weights depth) ids layout).Runs memo layout memo := by
  induction ids with
  | nil => simp [placeAll]
  | cons id rest ih =>
      rw [List.forall_mem_cons] at h
      simp only [placeAll, runs_bind]
      exact ⟨layout, memo, place_met h.1, ih h.2⟩

/-- A unit that follows no unit but those laid out is put behind them. -/
theorem place_behind (depth : Nat) (hw : weights.map Prod.fst = units) (hm : u.Settled units memo)
    (hid : id ∈ units) {placed : List String} (hnew : id ∉ placed)
    (hbefore : ∀ other, u.Follows units id other → other ∈ placed ∨ other = id) :
    ∃ memo', (u.place weights (depth + 1) id ⟨placed, []⟩).Runs memo ⟨placed ++ [id], []⟩ memo' ∧
      u.Settled units memo' := by
  obtain ⟨before, hload⟩ := hm.sound.known (hm.knows id hid).choose_spec
  obtain ⟨memo₁, hrun₁⟩ := loadDependencies_total hm.sound hload
  obtain ⟨-, hsound₁, hsame₁⟩ := loadDependencies_runs hm.sound hrun₁
  have hm₁ : u.Settled units memo₁ :=
    ⟨hsound₁, fun other hother => by
      rw [DependencyMemo.Knows, hsame₁]
      exact hm.knows other hother⟩
  have hsub : byWeight weights (u.breaksOf id) ⊆ units := fun x hx => hw ▸ (mem_byWeight.mp hx).2
  obtain ⟨breaks, hbreaks, hmem⟩ := breaksBefore_total id hm₁ hsub
  have hmet : ∀ other, u.Follows units id other → other ∈ placed ∨ other ∈ [id] := by
    intro other hfollows
    exact (hbefore other hfollows).imp_right List.mem_singleton.mpr
  have hloads : ∀ other ∈ byWeight weights before, other ∈ placed ∨ other ∈ [id] := by
    intro other hother
    obtain ⟨hmem, hunits⟩ := mem_byWeight.mp hother
    exact hmet other ⟨hw ▸ hunits, .inl ⟨before, hload, hmem⟩⟩
  have hbroken : ∀ other ∈ breaks, other ∈ placed ∨ other ∈ [id] := by
    intro other hother
    obtain ⟨hmem, hfree⟩ := (hmem other).mp hother
    obtain ⟨hmem, hunits⟩ := mem_byWeight.mp hmem
    exact hmet other ⟨hw ▸ hunits, .inr ⟨hmem, hfree⟩⟩
  refine ⟨memo₁, ?_, hm₁⟩
  simp only [place, List.contains_nil, Bool.or_false, List.contains_iff_mem, hnew, if_false,
    runs_bind, runs_pure]
  exact ⟨before, memo₁, hrun₁, ⟨placed, [id]⟩, memo₁, placeAll_met hloads, breaks, memo₁, hbreaks,
    ⟨placed, [id]⟩, memo₁, placeAll_met hbroken, by simp, rfl⟩

/-- Units of which each follows only earlier ones are laid out as they are taken up. -/
theorem placeAll_inOrder (depth : Nat) (hw : weights.map Prod.fst = units)
    (hm : u.Settled units memo) (hids : ids ⊆ units) {placed : List String}
    (hnodup : (placed ++ ids).Nodup)
    (hbefore : ∀ before id after, ids = before ++ id :: after →
      ∀ other, u.Follows units id other → other ∈ placed ++ before ∨ other = id) :
    ∃ memo', (placeAll (u.place weights (depth + 1)) ids ⟨placed, []⟩).Runs memo
      ⟨placed ++ ids, []⟩ memo' := by
  induction ids generalizing memo placed with
  | nil => exact ⟨memo, by simp [placeAll]⟩
  | cons id rest ih =>
      rw [List.cons_subset] at hids
      have hnew : id ∉ placed := fun hmem =>
        (List.nodup_append.mp hnodup).2.2 id hmem id List.mem_cons_self rfl
      obtain ⟨memo₁, hrun₁, hm₁⟩ := place_behind depth hw hm hids.1 hnew fun other h => by
        simpa using hbefore [] id rest rfl other h
      rw [← List.singleton_append, ← List.append_assoc] at hnodup ⊢
      obtain ⟨memo₂, hrun₂⟩ := ih hm₁ hids.2 hnodup fun before other after hsplit x hx => by
        rw [List.append_assoc]
        exact hbefore (id :: before) other after (by rw [hsplit, List.cons_append]) x hx
      refine ⟨memo₂, ?_⟩
      simp only [List.singleton_append, placeAll, runs_bind]
      exact ⟨_, memo₁, hrun₁, hrun₂⟩

end

/-! ### The order of units -/

/-- Units can be sorted if and only if their transitive dependencies are given. -/
theorem exists_sort_iff (hm : memo.Faithful u) :
    (∃ order memo', (u.sort units).Runs memo order memo') ↔ u.AllGiven units := by
  constructor
  · rintro ⟨order, memo', hrun⟩
    simp only [sort, runs_bind] at hrun
    obtain ⟨weights, memo₁, hweigh, -⟩ := hrun
    exact exists_reply_of_weigh hm hweigh
  · intro hgiven
    obtain ⟨weights, memo₁, hweigh, -⟩ := weigh_total hm hgiven
    obtain ⟨hm₁, hkeys, -⟩ := weigh_runs (sound_of_faithful hm) hweigh
    have hstart : byWeight weights units ⊆ units := fun x hx => (mem_byWeight.mp hx).1
    obtain ⟨layout, memo₂, hlayout, -⟩ := layout_total hkeys hm₁ hstart (laid_empty u units) rfl
    refine ⟨layout.placed, memo₂, ?_⟩
    simp only [sort, runs_bind, runs_pure]
    exact ⟨weights, memo₁, hweigh, layout, memo₂, hlayout, rfl, rfl⟩

/-- A unit that comes later in order of weight is not loaded by an earlier one, nor by itself. -/
theorem mem_before_of_loads {before after : List String} {id dependency : String}
    (hgiven : u.AllGiven (before ++ id :: after))
    (hlighter : (before ++ id :: after).Pairwise u.Lighter) (hload : u.Loads id dependency)
    (hmem : dependency ∈ before ++ id :: after) : dependency ∈ before := by
  obtain ⟨found, hfound⟩ := hgiven id (by simp)
  have hlt := loadCount_lt hfound hload
  rcases List.mem_append.mp hmem with hmem | hmem
  · exact hmem
  rcases List.mem_cons.mp hmem with rfl | hmem
  · exact absurd hlt (Nat.lt_irrefl _)
  · have hpair := (List.pairwise_append.mp hlighter).2.1
    rcases (List.pairwise_cons.mp hpair).1 dependency hmem with h | ⟨h, -⟩ <;> omega

/-- Where no unit breaks with another one, sorting orders the units by weight. -/
theorem sort_lighter (hm : memo.Faithful u) (hunits : units.Pairwise (· < ·))
    (hgiven : u.AllGiven units)
    (hbreaks : ∀ id ∈ units, ∀ other ∈ units, other ∈ u.breaksOf id → other = id) :
    ∃ order memo', (u.sort units).Runs memo order memo' ∧ order.Pairwise u.Lighter := by
  obtain ⟨weights, memo₁, hweigh, hcount⟩ := weigh_total hm hgiven
  obtain ⟨hm₁, hkeys, -⟩ := weigh_runs (sound_of_faithful hm) hweigh
  have hlighter := pairwise_byWeight hunits hcount
  have hmem : ∀ x, x ∈ byWeight weights units ↔ x ∈ units := fun x => by
    rw [mem_byWeight, hkeys, and_self]
  have hnodup : ([] ++ byWeight weights units).Nodup := by
    rw [List.nil_append, byWeight, (List.mergeSort_perm _ _).nodup_iff]
    exact (NameSet.nodup_of_sorted hunits).filter _
  obtain ⟨memo₂, hplace⟩ := placeAll_inOrder units.length hkeys hm₁
    (fun x hx => (hmem x).mp hx) hnodup (by
      rintro before id after hsplit other ⟨hother, hload | ⟨hbreak, -⟩⟩
      · rw [hsplit] at hlighter
        have hgiven' : u.AllGiven (before ++ id :: after) := fun x hx =>
          hgiven x ((hmem x).mp (hsplit ▸ hx))
        exact .inl (mem_before_of_loads hgiven' hlighter hload (hsplit ▸ (hmem other).mpr hother))
      · have hid : id ∈ units := (hmem id).mp (hsplit ▸ by simp)
        exact .inr (hbreaks id hid other hother hbreak))
  refine ⟨byWeight weights units, memo₂, ?_, hlighter⟩
  simp only [sort, runs_bind, runs_pure]
  exact ⟨weights, memo₁, hweigh, ⟨byWeight weights units, []⟩, memo₂, hplace, rfl, rfl⟩

/-- Units are sorted exactly if the transitive dependencies of each of them are given, whatever has
been asked before. The order then holds each unit once and nothing else. If no unit breaks with
another one, the units stand in it by the number of their transitive dependencies, and those with
equally many by their ids. -/
theorem sort_exact (u : Universe) (history : List Question) (names : List String) :
    let reply := ((u.sort (NameSet.ofList names)).run.run (u.memoAfter history)).1
    ((∃ fault, reply = .error fault) ↔
      ∃ id ∈ names, ∃ fault, u.freshReply (.transitiveDependencies id) = .error fault) ∧
    ∀ order, reply = .ok order →
      order.Nodup ∧ (∀ id, id ∈ order ↔ id ∈ names) ∧
      ((∀ id ∈ names, ∀ other ∈ names, other ∈ u.breaksOf id → other = id) →
        order.Pairwise u.Lighter) := by
  intro reply
  have hm := faithful_memoAfter u history
  have hok : (∃ order, reply = .ok order) ↔ u.AllGiven (NameSet.ofList names) := by
    rw [← exists_sort_iff hm]
    exact exists_congr fun order => ⟨fun h => ⟨_, runs_of_fst h⟩, fun ⟨_, h⟩ => congrArg Prod.fst h⟩
  have hgiven : u.AllGiven (NameSet.ofList names) ↔
      ¬ ∃ id ∈ names, ∃ fault, u.freshReply (.transitiveDependencies id) = .error fault := by
    simp only [AllGiven, NameSet.mem_ofList, not_exists, not_and]
    refine forall₂_congr fun id _ => ?_
    cases u.freshReply (.transitiveDependencies id) <;> simp
  refine ⟨?_, fun order horder => ?_⟩
  · rw [← not_iff_not, ← hgiven, ← hok]
    cases reply <;> simp
  · have hrun := runs_of_fst horder
    obtain ⟨layout, hl, rfl, hall⟩ := exists_laid_of_sort (sound_of_faithful hm) hrun
    refine ⟨hl.placed_nodup, fun id => ⟨fun hid => ?_, fun hid => hall id (NameSet.mem_ofList.mpr hid)⟩,
      fun hbreaks => ?_⟩
    · exact NameSet.mem_ofList.mp (sort_subset (sound_of_faithful hm) hrun hid)
    · obtain ⟨order', memo', hrun', hlighter⟩ := sort_lighter hm NameSet.sorted_ofList
        (hok.mp ⟨_, horder⟩) (by simpa only [NameSet.mem_ofList] using hbreaks)
      rwa [(hrun.unique hrun').1]

end ScriptMin.Universe
