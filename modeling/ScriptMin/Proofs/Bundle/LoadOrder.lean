import Mathlib
import ScriptMin.Proofs.Bundle.Reachability

/-!
The layout of units as a depth-first search. A unit is followed by the units that are laid
out before it: its load dependencies, and the units it breaks with that do not depend on it.
A followed unit that is still being laid out is passed over, which can happen only if it leads
back to the unit that follows it. So a load dependency comes first unless a chain of load
dependencies and breaks leads from it back to the unit, and such a chain does spoil the order
if the layout starts with the dependency.
-/

namespace ScriptMin.Universe

open Relation

def breaksOf (u : Universe) (id : String) : List String :=
  ((u.get? id).map fun unit => unit.manifest.breaks).getD []

/-- Laying out a unit lays out another one before it: a load dependency, or a unit it breaks
with that does not depend on it. -/
def Follows (u : Universe) (units : List String) (id other : String) : Prop :=
  other ∈ units ∧
    (u.Loads id other ∨ other ∈ u.breaksOf id ∧ ¬ TransGen u.Loads other id)

/-- A unit stands before another one in a list. -/
def Precedes (first second : String) (order : List String) : Prop :=
  ∃ before after, order = before ++ second :: after ∧ first ∈ before

/-- A chain of load dependencies and breaks leads from one unit to another. -/
def LeadsTo (u : Universe) (units : List String) : String → String → Prop :=
  ReflTransGen (u.Follows units)

/-- The load dependencies and the transitive dependencies of some units are known. -/
structure Settled (u : Universe) (units : List String) (memo : DependencyMemo) : Prop where
  sound : memo.Sound u
  knows : ∀ id ∈ units, memo.Knows id

/-- What holds of a layout between two steps. -/
structure Laid (u : Universe) (units : List String) (layout : Layout) : Prop where
  placed_nodup : layout.placed.Nodup
  active_nodup : layout.active.Nodup
  apart : ∀ id ∈ layout.active, id ∉ layout.placed
  active_units : layout.active ⊆ units
  /-- What a unit follows is laid out or being laid out. -/
  closed : ∀ id ∈ layout.placed, ∀ other, u.Follows units id other →
    other ∈ layout.placed ∨ other ∈ layout.active
  /-- What a unit follows stands before it, unless it leads back to the unit. -/
  ordered : ∀ before id after, layout.placed = before ++ id :: after →
    ∀ other, u.Follows units id other → other ∈ before ∨ u.LeadsTo units other id

variable {u : Universe} {units : List String} {memo memo' : DependencyMemo}

theorem laid_empty (u : Universe) (units : List String) : u.Laid units {} := by
  constructor <;> simp

/-! ### Weights -/

theorem weigh_runs {ids : List String} {weights : NameCounts} (hm : memo.Sound u)
    (h : (u.weigh ids).Runs memo weights memo') :
    u.Settled ids memo' ∧ weights.map Prod.fst = ids ∧
      ∀ id, memo.Knows id → memo'.Knows id := by
  induction ids generalizing memo weights with
  | nil =>
      simp only [weigh, Ordered.runs_pure] at h
      obtain ⟨rfl, rfl⟩ := h
      exact ⟨⟨hm, by simp⟩, rfl, fun _ h => h⟩
  | cons id rest ih =>
      simp only [weigh, Ordered.runs_bind, Ordered.runs_pure] at h
      obtain ⟨found, middle, hid, more, last, hrest, rfl, rfl⟩ := h
      have hc := transitiveDependencies_runs hm hid
      obtain ⟨⟨hsound, hknows⟩, hkeys, hgrows⟩ := ih hc.sound hrest
      refine ⟨⟨hsound, ?_⟩, by simp [hkeys], fun other ho => hgrows other (hc.grows other ho)⟩
      intro other hother
      rcases List.mem_cons.mp hother with rfl | hother
      · exact hgrows other hc.knows
      · exact hknows other hother

theorem has_iff_mem_keys {weights : NameCounts} {id : String} :
    weights.has id = true ↔ id ∈ weights.map Prod.fst := by
  induction weights with
  | nil => simp [NameCounts.has]
  | cons entry rest ih =>
      obtain ⟨other, count⟩ := entry
      simp only [NameCounts.has, List.lookup_cons] at ih ⊢
      by_cases heq : id = other
      · simp [heq]
      · simp only [beq_false_of_ne heq, List.map_cons, List.mem_cons, heq, false_or, ih]

theorem mem_byWeight {weights : NameCounts} {ids : List String} {id : String} :
    id ∈ byWeight weights ids ↔ id ∈ ids ∧ id ∈ weights.map Prod.fst := by
  rw [byWeight, List.mem_mergeSort, List.mem_filter, has_iff_mem_keys]

/-! ### Breaks -/

/-- The breaks that come first are those on units that do not depend on the breaking one. -/
theorem breaksBefore_total (id : String) {others : List String} (hm : u.Settled units memo)
    (hsub : others ⊆ units) :
    ∃ found, (u.breaksBefore id others).Runs memo found memo ∧
      ∀ x, x ∈ found ↔ x ∈ others ∧ ¬ TransGen u.Loads x id := by
  induction others with
  | nil => exact ⟨[], by simp [breaksBefore]⟩
  | cons other rest ih =>
      obtain ⟨found, hrest, hmem⟩ := ih fun x hx => hsub (List.mem_cons_of_mem _ hx)
      obtain ⟨known, hknown⟩ := hm.knows other (hsub List.mem_cons_self)
      have hexact := hm.sound.reachable hknown id
      refine ⟨if known.contains id then found else other :: found, ?_, ?_⟩
      · simp only [breaksBefore, Ordered.runs_bind, Ordered.runs_pure]
        exact ⟨known, memo, transitiveDependencies_known hknown, found, memo, hrest, rfl, rfl⟩
      · intro x
        by_cases hdep : known.contains id
        · have htrans : TransGen u.Loads other id := hexact.mp (by simpa using hdep)
          rw [if_pos hdep, hmem, List.mem_cons]
          constructor
          · exact fun h => ⟨.inr h.1, h.2⟩
          · rintro ⟨rfl | hx, hnot⟩
            · exact absurd htrans hnot
            · exact ⟨hx, hnot⟩
        · have hfree : ¬ TransGen u.Loads other id := fun h => hdep (by simpa using hexact.mpr h)
          rw [if_neg hdep, List.mem_cons, hmem, List.mem_cons]
          constructor
          · rintro (rfl | h)
            · exact ⟨.inl rfl, hfree⟩
            · exact ⟨.inr h.1, h.2⟩
          · rintro ⟨rfl | hx, hnot⟩
            · exact .inl rfl
            · exact .inr ⟨hx, hnot⟩

/-! ### Laying out units -/

/-- What laying out some units does to a layout. -/
structure Extends (u : Universe) (units ids : List String) (layout layout' : Layout) : Prop where
  laid : u.Laid units layout'
  active : layout'.active = layout.active
  grows : layout.placed <+: layout'.placed
  covers : ∀ id ∈ ids, id ∈ layout'.placed ∨ id ∈ layout.active

/-- Laying out single units is enough to lay out several ones. -/
theorem placeAll_total {place : String → Layout → Ordered Layout} (ids : List String)
    {layout : Layout} (hm : u.Settled units memo) (hl : u.Laid units layout)
    (hplace : ∀ id ∈ ids, ∀ memo mid, u.Settled units memo → u.Laid units mid →
      mid.active = layout.active →
      ∃ layout' memo', (place id mid).Runs memo layout' memo' ∧ u.Settled units memo' ∧
        u.Extends units [id] mid layout') :
    ∃ layout' memo', (placeAll place ids layout).Runs memo layout' memo' ∧
      u.Settled units memo' ∧ u.Extends units ids layout layout' := by
  induction ids generalizing memo layout with
  | nil =>
      refine ⟨layout, memo, by simp [placeAll], hm, hl, rfl, List.prefix_refl _, by simp⟩
  | cons id rest ih =>
      obtain ⟨mid, memo₁, hrun₁, hm₁, he₁⟩ :=
        hplace id List.mem_cons_self memo layout hm hl rfl
      obtain ⟨last, memo₂, hrun₂, hm₂, he₂⟩ := ih hm₁ he₁.laid fun other hother memo next hm hl ha =>
        hplace other (List.mem_cons_of_mem _ hother) memo next hm hl (ha.trans he₁.active)
      refine ⟨last, memo₂, ?_, hm₂, he₂.laid, he₂.active.trans he₁.active,
        he₁.grows.trans he₂.grows, ?_⟩
      · simp only [placeAll, Ordered.runs_bind]
        exact ⟨mid, memo₁, hrun₁, hrun₂⟩
      · intro other hother
        rcases List.mem_cons.mp hother with rfl | hother
        · exact (he₁.covers other (by simp)).imp_left fun h => he₂.grows.subset h
        · rw [← he₁.active]
          exact he₂.covers other hother

/-- Starting to lay out a unit keeps a layout in order. -/
theorem Laid.start {layout : Layout} {id : String} (hl : u.Laid units layout) (hid : id ∈ units)
    (hplaced : id ∉ layout.placed) (hactive : id ∉ layout.active) :
    u.Laid units { layout with active := id :: layout.active } where
  placed_nodup := hl.placed_nodup
  active_nodup := List.nodup_cons.mpr ⟨hactive, hl.active_nodup⟩
  apart := by
    intro other hother
    rcases List.mem_cons.mp hother with rfl | hother
    · exact hplaced
    · exact hl.apart other hother
  active_units := List.cons_subset.mpr ⟨hid, hl.active_units⟩
  closed := fun x hx other hother => (hl.closed x hx other hother).imp_right (List.mem_cons_of_mem _)
  ordered := hl.ordered

/-- A unit can be put at the end once everything it follows is laid out or active. -/
theorem Laid.finish {layout : Layout} {id : String} {active : List String}
    (hl : u.Laid units layout) (hactive : layout.active = id :: active)
    (hlead : ∀ a ∈ active, u.LeadsTo units a id)
    (hbefore : ∀ other, u.Follows units id other →
      other ∈ layout.placed ∨ other ∈ layout.active) :
    u.Laid units ⟨layout.placed ++ [id], active⟩ := by
  have hnodup : (id :: active).Nodup := hactive ▸ hl.active_nodup
  obtain ⟨hid, hnodup⟩ := List.nodup_cons.mp hnodup
  have hplaced : id ∉ layout.placed := hl.apart id (by simp [hactive])
  constructor
  · rw [List.nodup_append]
    refine ⟨hl.placed_nodup, List.nodup_singleton _, ?_⟩
    rintro a ha b hb rfl
    exact hplaced (List.mem_singleton.mp hb ▸ ha)
  · exact hnodup
  · intro other hother hmem
    rcases List.mem_append.mp hmem with hmem | hmem
    · exact hl.apart other (by simp [hactive, hother]) hmem
    · exact hid (List.mem_singleton.mp hmem ▸ hother)
  · intro other hother
    exact hl.active_units (by simp [hactive, hother])
  · intro x hx other hother
    have hcases : other ∈ layout.placed ∨ other ∈ layout.active := by
      rcases List.mem_append.mp hx with hx | hx
      · exact hl.closed x hx other hother
      · exact hbefore other (List.mem_singleton.mp hx ▸ hother)
    rw [hactive, List.mem_cons] at hcases
    rw [List.mem_append, List.mem_singleton]
    tauto
  · intro before x after hsplit other hother
    rcases List.eq_nil_or_concat after with rfl | ⟨front, last, rfl⟩
    · obtain ⟨rfl, heq⟩ := List.append_inj' hsplit rfl
      cases heq
      rcases hbefore other hother with h | h
      · exact .inl h
      · rw [hactive, List.mem_cons] at h
        rcases h with rfl | h
        · exact .inr .refl
        · exact .inr (hlead other h)
    · rw [List.concat_eq_append, ← List.cons_append, ← List.append_assoc] at hsplit
      obtain ⟨heq, -⟩ := List.append_inj' hsplit rfl
      exact hl.ordered before x front heq other hother

/-- Active units that leave one out are fewer than all units. -/
theorem Laid.active_length_lt {layout : Layout} {id : String} (hl : u.Laid units layout)
    (hid : id ∈ units) (hactive : id ∉ layout.active) : layout.active.length < units.length := by
  have hnodup : (id :: layout.active).Nodup := List.nodup_cons.mpr ⟨hactive, hl.active_nodup⟩
  have hsub : id :: layout.active ⊆ units := List.cons_subset.mpr ⟨hid, hl.active_units⟩
  exact (hnodup.subperm hsub).length_le

/-- Laying out a unit succeeds, and a unit that is new to the layout ends up last. -/
theorem place_total {weights : NameCounts} (hw : weights.map Prod.fst = units) (depth : Nat)
    {id : String} {layout : Layout} (hid : id ∈ units)
    (hdepth : units.length < depth + layout.active.length) (hm : u.Settled units memo)
    (hl : u.Laid units layout) (hlead : ∀ a ∈ layout.active, u.LeadsTo units a id) :
    ∃ layout' memo', (u.place weights depth id layout).Runs memo layout' memo' ∧
      u.Settled units memo' ∧ u.Extends units [id] layout layout' ∧
      (id ∉ layout.placed → id ∉ layout.active → ∃ front, layout'.placed = front ++ [id]) := by
  induction depth generalizing id layout memo with
  | zero =>
      by_cases hactive : id ∈ layout.active
      · exact ⟨layout, memo, by simp [place], hm, ⟨hl, rfl, List.prefix_refl _, by simp [hactive]⟩,
          fun _ h => absurd hactive h⟩
      · have := hl.active_length_lt hid hactive
        omega
  | succ depth ih =>
      by_cases hmet : id ∈ layout.placed ∨ id ∈ layout.active
      · refine ⟨layout, memo, ?_, hm, ⟨hl, rfl, List.prefix_refl _, by simpa using hmet⟩, ?_⟩
        · simp [place, hmet]
        · intro hp ha
          exact absurd hmet (by simp [hp, ha])
      · obtain ⟨hplaced, hactive⟩ := not_or.mp hmet
        have hl₀ := hl.start hid hplaced hactive
        obtain ⟨before, hbefore⟩ := hm.sound.known (hm.knows id hid).choose_spec
        obtain ⟨memo₁, hload⟩ := loadDependencies_total hm.sound hbefore
        obtain ⟨-, hsound₁, hsame₁⟩ := loadDependencies_runs hm.sound hload
        have hm₁ : u.Settled units memo₁ :=
          ⟨hsound₁, fun other ho => by
            rw [DependencyMemo.Knows, hsame₁]
            exact hm.knows other ho⟩
        -- one unit that this one follows, laid out while this one is active
        have hstep : ∀ other, u.Follows units id other → ∀ memo mid, u.Settled units memo →
            u.Laid units mid → mid.active = id :: layout.active →
            ∃ layout' memo', (u.place weights depth other mid).Runs memo layout' memo' ∧
              u.Settled units memo' ∧ u.Extends units [other] mid layout' := by
          intro other hfollows memo mid hm hmid hactive
          have hdepth' : units.length < depth + mid.active.length := by
            rw [hactive, List.length_cons]
            omega
          obtain ⟨layout', memo', hrun, hm', he, -⟩ := ih hfollows.1 hdepth' hm hmid (by
            rw [hactive]
            intro a ha
            rcases List.mem_cons.mp ha with rfl | ha
            · exact .single hfollows
            · exact (hlead a ha).tail hfollows)
          exact ⟨layout', memo', hrun, hm', he⟩
        obtain ⟨mid, memo₂, hrun₂, hm₂, he₂⟩ := placeAll_total (byWeight weights before)
          hm₁ hl₀ fun other hother memo mid => hstep other (by
            obtain ⟨hmem, hunits⟩ := mem_byWeight.mp hother
            exact ⟨hw ▸ hunits, .inl ⟨before, hbefore, hmem⟩⟩) memo mid
        have hsub : byWeight weights (u.breaksOf id) ⊆ units :=
          fun x hx => hw ▸ (mem_byWeight.mp hx).2
        obtain ⟨breaks, hbreaks, hmem⟩ := breaksBefore_total id hm₂ hsub
        obtain ⟨last, memo₃, hrun₃, hm₃, he₃⟩ := placeAll_total breaks hm₂ he₂.laid
          fun other hother memo mid hm hmid ha => hstep other (by
            obtain ⟨hmem, hfree⟩ := (hmem other).mp hother
            obtain ⟨hmem, hunits⟩ := mem_byWeight.mp hmem
            exact ⟨hw ▸ hunits, .inr ⟨hmem, hfree⟩⟩) memo mid hm hmid (ha.trans he₂.active)
        have hactive₂ : mid.active = id :: layout.active := he₂.active
        have hactive₃ : last.active = id :: layout.active := he₃.active.trans hactive₂
        have hlaid := he₃.laid.finish hactive₃ hlead (by
          rintro other ⟨hunits, hloads | ⟨hbreak, hfree⟩⟩
          · have hmem : other ∈ byWeight weights before :=
              mem_byWeight.mpr ⟨(loads_iff hbefore).mp hloads, hw ▸ hunits⟩
            rcases he₂.covers other hmem with h | h
            · exact .inl (he₃.grows.subset h)
            · exact .inr (by rw [hactive₃]; exact h)
          · have hmem : other ∈ breaks :=
              (hmem other).mpr ⟨mem_byWeight.mpr ⟨hbreak, hw ▸ hunits⟩, hfree⟩
            rcases he₃.covers other hmem with h | h
            · exact .inl h
            · exact .inr (by rw [hactive₃, ← hactive₂]; exact h))
        refine ⟨⟨last.placed ++ [id], layout.active⟩, memo₃, ?_, hm₃, ⟨hlaid, rfl, ?_, ?_⟩, ?_⟩
        · simp only [place, Bool.or_eq_true, List.contains_iff_mem, hmet, if_false,
            Ordered.runs_bind, Ordered.runs_pure]
          refine ⟨before, memo₁, hload, mid, memo₂, hrun₂, breaks, memo₂, hbreaks, last, memo₃, hrun₃,
            ?_, rfl⟩
          rw [hactive₃, List.erase_cons_head]
        · exact (he₂.grows.trans he₃.grows).trans (List.prefix_append _ _)
        · simp
        · exact fun _ _ => ⟨last.placed, rfl⟩

/-! ### The order of units -/

/-- The order of units if they are taken up in a given order. -/
def sortFrom (u : Universe) (units start : List String) : Ordered (List String) := do
  let weights ← u.weigh units
  let layout ← placeAll (u.place weights (units.length + 1)) start {}
  return layout.placed

/-- Units are sorted by taking them up in some order. -/
theorem sort_runs {order : List String} (hm : memo.Sound u)
    (h : (u.sort units).Runs memo order memo') :
    ∃ start, start.Perm units ∧ (u.sortFrom units start).Runs memo order memo' := by
  simp only [sort, Ordered.runs_bind, Ordered.runs_pure] at h
  obtain ⟨weights, memo₁, hweigh, layout, memo₂, hplace, rfl, rfl⟩ := h
  obtain ⟨-, hkeys, -⟩ := weigh_runs hm hweigh
  refine ⟨byWeight weights units, ?_, ?_⟩
  · have hall : units.filter weights.has = units :=
      List.filter_eq_self.mpr fun id hid => has_iff_mem_keys.mpr (hkeys ▸ hid)
    rw [byWeight, hall]
    exact List.mergeSort_perm _ _
  · simp only [sortFrom, Ordered.runs_bind, Ordered.runs_pure]
    exact ⟨weights, memo₁, hweigh, layout, memo₂, hplace, rfl, rfl⟩

/-- Once the units are weighed, they can be laid out whatever order they are taken up in. -/
theorem layout_total {weights : NameCounts} (hw : weights.map Prod.fst = units)
    (hm : u.Settled units memo) {start : List String} (hstart : start ⊆ units) {layout : Layout}
    (hl : u.Laid units layout) (hactive : layout.active = []) :
    ∃ layout' memo', (placeAll (u.place weights (units.length + 1)) start layout).Runs memo layout'
      memo' ∧ u.Settled units memo' ∧ u.Extends units start layout layout' := by
  refine placeAll_total start hm hl fun id hid memo mid hm hl ha => ?_
  obtain ⟨layout', memo', hrun, hm', he, -⟩ := place_total hw (units.length + 1) (hstart hid)
    (by omega) hm hl (by simp [ha, hactive])
  exact ⟨layout', memo', hrun, hm', he⟩

/-- A layout that nothing is active in orders what it holds, unless there is a way back. -/
theorem Laid.precedes {layout : Layout} {id dependency : String} (hl : u.Laid units layout)
    (hid : id ∈ layout.placed) (hfollows : u.Follows units id dependency)
    (hfree : ¬ u.LeadsTo units dependency id) : Precedes dependency id layout.placed := by
  obtain ⟨before, after, hsplit⟩ := List.append_of_mem hid
  rcases hl.ordered before id after hsplit dependency hfollows with h | h
  · exact ⟨before, after, hsplit, h⟩
  · exact absurd h hfree

/-- A layout that nothing is active in holds whatever its units lead to. -/
theorem Laid.mem_of_leadsTo {layout : Layout} {id other : String} (hl : u.Laid units layout)
    (hactive : layout.active = []) (hid : id ∈ layout.placed) (h : u.LeadsTo units id other) :
    other ∈ layout.placed := by
  induction h with
  | refl => exact hid
  | tail _ hfollows ih =>
      rcases hl.closed _ ih _ hfollows with h | h
      · exact h
      · simp [hactive] at h

/-- Taking up a unit first puts everything it leads to before it. -/
theorem sortFrom_precedes {weights : NameCounts} {memo₁ : DependencyMemo}
    (hweigh : (u.weigh units).Runs memo weights memo₁) (hw : weights.map Prod.fst = units)
    (hm : u.Settled units memo₁) {id other : String} (hid : id ∈ units)
    (hlead : u.LeadsTo units id other) (hne : other ≠ id) {rest : List String}
    (hrest : rest ⊆ units) :
    ∃ order memo', (u.sortFrom units (id :: rest)).Runs memo order memo' ∧
      Precedes other id order := by
  obtain ⟨first, memo₂, hrun₂, hm₂, he₂, hlast⟩ := place_total hw
    (units.length + 1) hid (by omega) hm (laid_empty u units) (by simp)
  obtain ⟨front, hfront⟩ := hlast (by simp) (by simp)
  obtain ⟨final, memo₃, hrun₃, hm₃, he₃⟩ := layout_total hw hm₂ hrest he₂.laid he₂.active
  have hother : other ∈ front := by
    have hmem := he₂.laid.mem_of_leadsTo he₂.active (by simp [hfront]) hlead
    rw [hfront, List.mem_append, List.mem_singleton] at hmem
    exact hmem.resolve_right hne
  refine ⟨final.placed, memo₃, ?_, ?_⟩
  · simp only [sortFrom, placeAll, Ordered.runs_bind, Ordered.runs_pure]
    exact ⟨weights, memo₁, hweigh, final, memo₃, ⟨first, memo₂, hrun₂, hrun₃⟩, rfl, rfl⟩
  · obtain ⟨more, hmore⟩ := he₃.grows
    exact ⟨front, more, by rw [← hmore, hfront, List.append_assoc, List.singleton_append], hother⟩

theorem ne_of_loads {id dependency : String} (h : u.Loads id dependency) : dependency ≠ id := by
  obtain ⟨found, hfound, hmem⟩ := h
  simp only [loadedBefore, dependencies] at hfound
  cases hdemand : u.demand id with
  | error fault => simp [hdemand, bind, Except.bind] at hfound
  | ok unit =>
      cases hrequired : unit.manifest.requires.mapM (u.required id) with
      | error fault => simp [hdemand, hrequired, bind, Except.bind] at hfound
      | ok required =>
          simp only [hdemand, hrequired, bind, Except.bind, pure, Except.pure,
            Except.ok.injEq] at hfound
          rw [← hfound, List.mem_filter, List.mem_filter] at hmem
          simpa using hmem.1.2

/-- A load dependency stands before the unit unless a chain of load dependencies and breaks
leads from it back to the unit. Where such a chain exists, the order of the two hangs on the
order in which the units are taken up, and one that begins with the dependency turns them
round. -/
theorem sort_precedes_unless_leadsTo {order : List String} (hm : memo.Sound u)
    (h : (u.sort units).Runs memo order memo') {id dependency : String} (hid : id ∈ units)
    (hdependency : dependency ∈ units) (hload : u.Loads id dependency) :
    order.Nodup ∧
    (¬ u.LeadsTo units dependency id → Precedes dependency id order) ∧
    (u.LeadsTo units dependency id → ∃ start order' memo'', start.Perm units ∧
      (u.sortFrom units start).Runs memo order' memo'' ∧ Precedes id dependency order') := by
  obtain ⟨start, hstart, hrun⟩ := sort_runs hm h
  simp only [sortFrom, Ordered.runs_bind, Ordered.runs_pure] at hrun
  obtain ⟨weights, memo₁, hweigh, layout, memo₂, hplace, rfl, rfl⟩ := hrun
  obtain ⟨hm₁, hkeys, -⟩ := weigh_runs hm hweigh
  obtain ⟨layout', memo₂', hplace', -, he⟩ :=
    layout_total hkeys hm₁ hstart.subset (laid_empty u units) rfl
  obtain ⟨rfl, -⟩ := hplace.unique hplace'
  refine ⟨he.laid.placed_nodup, fun hfree => ?_, fun hlead => ?_⟩
  · have hplaced : id ∈ layout.placed :=
      (he.covers id (hstart.mem_iff.mpr hid)).resolve_right (by simp)
    exact he.laid.precedes hplaced ⟨hdependency, .inl hload⟩ hfree
  · obtain ⟨order', memo'', hrun', hprecedes⟩ := sortFrom_precedes hweigh hkeys hm₁ hdependency
      hlead (ne_of_loads hload).symm (List.erase_subset (a := dependency))
    exact ⟨dependency :: units.erase dependency, order', memo'',
      (List.perm_cons_erase hdependency).symm, hrun', hprecedes⟩

/-- Three units, each of which requires the one before it. The first one breaks in vain with
the last one. -/
def chained : Universe := ⟨[
  { id := "a", manifest := { breaks := ["c"] } },
  { id := "b", manifest := { requires := ["a"] } },
  { id := "c", manifest := { requires := ["b"] } }]⟩

theorem chained_not_leadsTo : ¬ chained.LeadsTo ["a", "b", "c"] "a" "b" := by
  have hloads : chained.loadedBefore "a" = .ok [] := by cbv
  have hcb : chained.Loads "c" "b" := ⟨["b"], by cbv, by decide⟩
  have hba : chained.Loads "b" "a" := ⟨["a"], by cbv, by decide⟩
  intro h
  rcases h.cases_head with h | ⟨other, ⟨-, h | ⟨h, hfree⟩⟩, -⟩
  · simp at h
  · simp [loads_iff hloads] at h
  · have hother : other = "c" := List.mem_singleton.mp h
    exact hfree (hother ▸ (TransGen.single hcb).tail hba)

theorem chained_sort_precedes :
    ∃ order memo', (chained.sort ["a", "b", "c"]).Runs {} order memo' ∧
      chained.Loads "b" "a" ∧ Precedes "a" "b" order := by
  have hload : chained.Loads "b" "a" := ⟨["a"], by cbv, by decide⟩
  have hrun : (chained.sort ["a", "b", "c"]).Runs {} ["a", "b", "c"] _ :=
    Ordered.runs_of_fst (by cbv)
  have h := sort_precedes_unless_leadsTo (sound_empty _) hrun (by simp) (by simp) hload
  exact ⟨_, _, hrun, hload, h.2.1 chained_not_leadsTo⟩

/-- Three units, of which the first breaks with the second, the second with the third, and the
third requires the first. -/
def tangled : Universe := ⟨[
  { id := "a", manifest := { breaks := ["b"] } },
  { id := "b", manifest := { breaks := ["c"] } },
  { id := "c", manifest := { requires := ["a"] } }]⟩

/-- Two breaks in a row put a unit before the unit it requires. -/
theorem tangled_sort_reverses :
    ∃ order memo', (tangled.sort ["a", "b", "c"]).Runs {} order memo' ∧
      tangled.Loads "c" "a" ∧ ¬ Precedes "a" "c" order := by
  have hload : tangled.Loads "c" "a" := ⟨["a"], by cbv, by decide⟩
  have hrun : (tangled.sort ["a", "b", "c"]).Runs {} ["c", "b", "a"] _ :=
    Ordered.runs_of_fst (by cbv)
  refine ⟨_, _, hrun, hload, ?_⟩
  rintro ⟨before, after, hsplit, hmem⟩
  cases before with
  | nil => simp at hmem
  | cons first rest => simp [List.cons_eq_append_iff] at hsplit

end ScriptMin.Universe
