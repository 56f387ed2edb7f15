import Mathlib.Data.List.Nodup
import Mathlib.Data.List.Perm.Subperm
import Mathlib.Logic.Relation
import ScriptMin.Bundle.LoadOrder

/-!
What the remembered dependencies mean. A memo is sound if every entry tells the truth about
the universe; asking for transitive dependencies keeps it sound, and an answer holds exactly
the units that are reached over one load dependency or more.
-/

namespace ScriptMin

open Relation

/-! ### Runs of remembering computations -/

/-- A computation succeeds with a result and leaves a memo. -/
def Ordered.Runs {α : Type} (x : Ordered α) (memo : DependencyMemo) (a : α)
    (memo' : DependencyMemo) : Prop :=
  x.run.run memo = (.ok a, memo')

namespace Ordered

variable {α β : Type} {x : Ordered α} {memo memo' memo'' : DependencyMemo}

theorem Runs.unique {a b : α} (h : x.Runs memo a memo') (h' : x.Runs memo b memo'') :
    a = b ∧ memo' = memo'' := by
  cases h.symm.trans h'
  exact ⟨rfl, rfl⟩

theorem runs_of_fst {a : α} (h : (x.run.run memo).1 = .ok a) :
    x.Runs memo a (x.run.run memo).2 :=
  Prod.ext h rfl

@[simp] theorem runs_pure {a b : α} :
    (pure a : Ordered α).Runs memo b memo' ↔ a = b ∧ memo = memo' := by
  constructor
  · intro h
    cases h
    exact ⟨rfl, rfl⟩
  · rintro ⟨rfl, rfl⟩
    rfl

@[simp] theorem runs_bind {f : α → Ordered β} {b : β} :
    (x >>= f).Runs memo b memo'' ↔ ∃ a memo', x.Runs memo a memo' ∧ (f a).Runs memo' b memo'' := by
  simp only [Runs, ExceptT.run_bind, StateT.run_bind]
  constructor
  · intro h
    obtain ⟨result, memo', hx⟩ : ∃ result memo', x.run.run memo = (result, memo') := ⟨_, _, rfl⟩
    cases result with
    | error fault =>
        rw [hx] at h
        cases h
    | ok a =>
        rw [hx] at h
        exact ⟨a, memo', hx, h⟩
  · rintro ⟨a, memo', hx, hf⟩
    rw [hx]
    exact hf

@[simp] theorem runs_get {found : DependencyMemo} :
    (get : Ordered DependencyMemo).Runs memo found memo' ↔ memo = found ∧ memo = memo' := by
  constructor
  · intro h
    cases h
    exact ⟨rfl, rfl⟩
  · rintro ⟨rfl, rfl⟩
    rfl

@[simp] theorem runs_modify {f : DependencyMemo → DependencyMemo} {a : Unit} :
    (modify f : Ordered Unit).Runs memo a memo' ↔ f memo = memo' := by
  constructor
  · intro h
    cases h
    rfl
  · rintro rfl
    rfl

@[simp] theorem runs_throw {fault : DependencyFault} {a : α} :
    ¬ (throw fault : Ordered α).Runs memo a memo' := by
  intro h
  cases h

@[simp] theorem runs_liftExcept {e : Except DependencyFault α} {a : α} :
    (liftExcept e : Ordered α).Runs memo a memo' ↔ e = .ok a ∧ memo = memo' := by
  cases e with
  | error fault => exact ⟨nofun, nofun⟩
  | ok b =>
      simp only [liftExcept, runs_pure, Except.ok.injEq]

end Ordered

namespace Universe

/-- A unit has to be loaded directly before another one. -/
def Loads (u : Universe) (id dependency : String) : Prop :=
  ∃ found, u.loadedBefore id = .ok found ∧ dependency ∈ found

theorem loads_iff {u : Universe} {id : String} {found : NameSet}
    (h : u.loadedBefore id = .ok found) {x : String} : u.Loads id x ↔ x ∈ found := by
  constructor
  · rintro ⟨found', h', hx⟩
    rw [h, Except.ok.injEq] at h'
    rwa [h']
  · exact fun hx => ⟨found, h, hx⟩

theorem mem_ids_of_loadedBefore {u : Universe} {id : String} {found : NameSet}
    (h : u.loadedBefore id = .ok found) : id ∈ u.ids := by
  simp only [loadedBefore, demand] at h
  cases hget : u.get? id with
  | none => simp [hget, bind, Except.bind] at h
  | some unit =>
      have hmem := List.mem_of_find?_eq_some hget
      have hid := List.find?_some hget
      simp only [beq_iff_eq] at hid
      exact List.mem_map.mpr ⟨unit, hmem, hid⟩

end Universe

/-- Every entry of a memo tells the truth about a universe. -/
structure DependencyMemo.Sound (u : Universe) (memo : DependencyMemo) : Prop where
  direct : ∀ {id found}, memo.direct.lookup id = some found → u.loadedBefore id = .ok found
  reachable : ∀ {id found}, memo.reachable.lookup id = some found →
    ∀ x, x ∈ found ↔ TransGen u.Loads id x
  known : ∀ {id found}, memo.reachable.lookup id = some found →
    ∃ before, u.loadedBefore id = .ok before

/-- The transitive dependencies of a unit are remembered. -/
def DependencyMemo.Knows (memo : DependencyMemo) (id : String) : Prop :=
  ∃ found, memo.reachable.lookup id = some found

namespace Universe

variable {u : Universe} {memo memo' : DependencyMemo} {id : String} {found : NameSet}

theorem sound_empty (u : Universe) : DependencyMemo.Sound u {} := by
  constructor <;> simp

theorem loadDependencies_runs (hm : memo.Sound u)
    (h : (u.loadDependencies id).Runs memo found memo') :
    u.loadedBefore id = .ok found ∧ memo'.Sound u ∧ memo'.reachable = memo.reachable := by
  simp only [loadDependencies, Ordered.runs_bind, Ordered.runs_get] at h
  obtain ⟨_, _, ⟨rfl, rfl⟩, h⟩ := h
  cases hlook : memo.direct.lookup id with
  | some known =>
      simp only [hlook, Ordered.runs_pure] at h
      obtain ⟨rfl, rfl⟩ := h
      exact ⟨hm.direct hlook, hm, rfl⟩
  | none =>
      simp only [hlook, Ordered.runs_bind, Ordered.runs_liftExcept, Ordered.runs_modify,
        Ordered.runs_pure] at h
      obtain ⟨_, _, ⟨hbefore, rfl⟩, _, _, rfl, rfl, rfl⟩ := h
      refine ⟨hbefore, ⟨?_, hm.reachable, hm.known⟩, rfl⟩
      intro other known hother
      rw [List.lookup_cons] at hother
      split at hother
      next heq =>
        cases hother
        rw [beq_iff_eq.mp heq]
        exact hbefore
      next => exact hm.direct hother

theorem loadDependencies_total (hm : memo.Sound u) (h : u.loadedBefore id = .ok found) :
    ∃ memo', (u.loadDependencies id).Runs memo found memo' := by
  simp only [loadDependencies, Ordered.runs_bind, Ordered.runs_get]
  cases hlook : memo.direct.lookup id with
  | some known =>
      have hknown := hm.direct hlook
      rw [h, Except.ok.injEq] at hknown
      exact ⟨memo, memo, memo, ⟨rfl, rfl⟩, by simp [hlook, hknown]⟩
  | none =>
      refine ⟨{ memo with direct := (id, found) :: memo.direct }, memo, memo, ⟨rfl, rfl⟩, ?_⟩
      simp only [hlook, Ordered.runs_bind, Ordered.runs_liftExcept, Ordered.runs_modify,
        Ordered.runs_pure]
      exact ⟨found, memo, ⟨h, rfl⟩, (), _, rfl, rfl, rfl⟩

/-! ### Transitive dependencies -/

/-- What a question for transitive dependencies answers and leaves behind. -/
structure Collected (u : Universe) (memo : DependencyMemo) (id : String) (found : NameSet)
    (memo' : DependencyMemo) : Prop where
  sound : memo'.Sound u
  exact : ∀ x, x ∈ found ↔ TransGen u.Loads id x
  grows : ∀ other, memo.Knows other → memo'.Knows other
  knows : memo'.Knows id

theorem transGen_head_iff {id x : String} :
    TransGen u.Loads id x ↔ ∃ d, u.Loads id d ∧ (x = d ∨ TransGen u.Loads d x) := by
  rw [TransGen.head'_iff]
  constructor
  · rintro ⟨d, hd, hx⟩
    rcases reflTransGen_iff_eq_or_transGen.mp hx with rfl | hx
    · exact ⟨x, hd, .inl rfl⟩
    · exact ⟨d, hd, .inr hx⟩
  · rintro ⟨d, hd, rfl | hx⟩
    · exact ⟨x, hd, .refl⟩
    · exact ⟨d, hd, hx.to_reflTransGen⟩

/-- Gathering joins the answers for several units and the units themselves. -/
theorem gather_runs {collect : String → Ordered NameSet}
    (hcollect : ∀ {memo id found memo'}, memo.Sound u → (collect id).Runs memo found memo' →
      Collected u memo id found memo')
    {ids : List String} {start : NameSet} (hm : memo.Sound u)
    (h : (gather collect ids start).Runs memo found memo') :
    memo'.Sound u ∧ (∀ other, memo.Knows other → memo'.Knows other) ∧
      ∀ x, x ∈ found ↔ x ∈ start ∨ ∃ d ∈ ids, x = d ∨ TransGen u.Loads d x := by
  induction ids generalizing memo start with
  | nil =>
      simp only [gather, Ordered.runs_pure] at h
      obtain ⟨rfl, rfl⟩ := h
      simp [hm]
  | cons id rest ih =>
      simp only [gather, Ordered.runs_bind] at h
      obtain ⟨nested, middle, hid, hrest⟩ := h
      have hc := hcollect hm hid
      obtain ⟨hsound, hgrows, hmem⟩ := ih hc.sound hrest
      refine ⟨hsound, fun other ho => hgrows other (hc.grows other ho), fun x => ?_⟩
      rw [hmem, NameSet.mem_insert, NameSet.mem_insertAll, hc.exact, List.exists_mem_cons_iff,
        or_comm (b := x ∈ start), or_left_comm, or_assoc, or_assoc]

/-- A path of different units of a universe is no longer than the universe. -/
theorem length_le_size {path : List String} (hnodup : path.Nodup) (hsub : path ⊆ u.ids) :
    path.length ≤ u.size := by
  have h := (hnodup.subperm hsub).length_le
  simpa [ids, size] using h

theorem collect_runs {steps : Nat} {path : List String} (hsteps : u.size < steps + path.length)
    (hnodup : path.Nodup) (hsub : path ⊆ u.ids) (hm : memo.Sound u)
    (h : (u.collect steps path id).Runs memo found memo') : Collected u memo id found memo' := by
  induction steps generalizing path id memo found memo' with
  | zero =>
      have := length_le_size hnodup hsub
      omega
  | succ steps ih =>
      simp only [collect, Ordered.runs_bind, Ordered.runs_get] at h
      obtain ⟨_, _, ⟨rfl, rfl⟩, h⟩ := h
      cases hlook : memo.reachable.lookup id with
      | some known =>
          simp only [hlook, Ordered.runs_pure] at h
          obtain ⟨rfl, rfl⟩ := h
          exact ⟨hm, hm.reachable hlook, fun _ h => h, known, hlook⟩
      | none =>
          simp only [hlook] at h
          by_cases hpath : path.contains id
          · simp only [hpath, if_true, Ordered.runs_bind] at h
            obtain ⟨_, _, hthrow, _⟩ := h
            exact absurd hthrow Ordered.runs_throw
          · simp only [hpath, Bool.false_eq_true, if_false, Ordered.runs_bind, Ordered.runs_pure,
              Ordered.runs_modify] at h
            obtain ⟨before, middle, hload, gathered, last, hgather, _, _, rfl, rfl, rfl⟩ := h
            obtain ⟨hbefore, hmiddle, hsame⟩ := loadDependencies_runs hm hload
            have hid : id ∉ path := by simpa using hpath
            have hnodup' : (path ++ [id]).Nodup := by
              rw [List.nodup_append]
              simp only [hnodup, List.nodup_singleton, true_and, List.mem_singleton]
              rintro a ha _ rfl rfl
              exact hid ha
            have hsub' : path ++ [id] ⊆ u.ids := by
              intro a ha
              rcases List.mem_append.mp ha with ha | ha
              · exact hsub ha
              · rw [List.mem_singleton.mp ha]
                exact mem_ids_of_loadedBefore hbefore
            have hsteps' : u.size < steps + (path ++ [id]).length := by
              rw [List.length_append, List.length_singleton]
              omega
            obtain ⟨hlast, hgrows, hmem⟩ := gather_runs (ih hsteps' hnodup' hsub') hmiddle hgather
            have hexact : ∀ x, x ∈ gathered ↔ TransGen u.Loads id x := by
              intro x
              rw [hmem, transGen_head_iff]
              simp only [List.not_mem_nil, false_or, loads_iff hbefore]
            have hknows : ∀ other, last.Knows other ∨ other = id →
                DependencyMemo.Knows { last with reachable := (id, gathered) :: last.reachable }
                  other := by
              intro other hother
              by_cases heq : other = id
              · exact ⟨gathered, by simp [heq]⟩
              · obtain ⟨known, hknown⟩ := hother.resolve_right heq
                exact ⟨known, by rw [List.lookup_cons, beq_false_of_ne heq]; exact hknown⟩
            refine ⟨⟨hlast.direct, ?_, ?_⟩, hexact, ?_, hknows id (.inr rfl)⟩
            · intro other known hother
              rw [List.lookup_cons] at hother
              split at hother
              next heq =>
                cases hother
                rw [beq_iff_eq.mp heq]
                exact hexact
              next => exact hlast.reachable hother
            · intro other known hother
              rw [List.lookup_cons] at hother
              split at hother
              next heq =>
                rw [beq_iff_eq.mp heq]
                exact ⟨before, hbefore⟩
              next => exact hlast.known hother
            · rintro other ⟨known, hknown⟩
              exact hknows other (.inl (hgrows other ⟨known, by rw [hsame]; exact hknown⟩))

/-- Transitive dependencies are the units reached over one load dependency or more. -/
theorem transitiveDependencies_runs (hm : memo.Sound u)
    (h : (u.transitiveDependencies id).Runs memo found memo') : Collected u memo id found memo' :=
  collect_runs (by simp) List.nodup_nil (List.nil_subset _) hm h

/-- A remembered answer is given again, and nothing changes. -/
theorem transitiveDependencies_known (h : memo.reachable.lookup id = some found) :
    (u.transitiveDependencies id).Runs memo found memo := by
  simp only [transitiveDependencies, collect, Ordered.runs_bind, Ordered.runs_get]
  exact ⟨memo, memo, ⟨rfl, rfl⟩, by simp [h]⟩

end Universe

end ScriptMin
