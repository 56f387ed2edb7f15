import Mathlib.Data.Finset.Card
import Mathlib.Data.Finset.Range
import ScriptMin.Proofs.Store.Forest

/-!
Lines of ancestors in forests. A line gets shorter from every node to its parent, so that no line
is longer than the store is large. Searches along a line or below a node that stop after as many
steps as there are nodes therefore miss nothing.
-/

namespace ScriptMin.Store

variable {s : Store} {id parent child x y : NodeId} {kinds : List Kind}

open Classical in
noncomputable def line (s : Store) (id : NodeId) : Finset NodeId :=
  (Finset.range s.size).filter (s.Within id)

theorem mem_line : y ∈ s.line x ↔ y < s.size ∧ s.Within x y := by
  classical
  simp only [line, Finset.mem_filter, Finset.mem_range]

noncomputable def lineLength (s : Store) (id : NodeId) : Nat := (s.line id).card

theorem lineLength_le_size : s.lineLength id ≤ s.size := by
  rw [lineLength, ← Finset.card_range s.size]
  exact Finset.card_le_card fun x hx => Finset.mem_range.mpr (mem_line.mp hx).1

theorem line_subset (h : s.Within x y) : s.line y ⊆ s.line x := by
  intro z hz
  obtain ⟨hlt, hyz⟩ := mem_line.mp hz
  exact mem_line.mpr ⟨hlt, h.trans hyz⟩

theorem Within.lineLength_le (h : s.Within x y) : s.lineLength y ≤ s.lineLength x :=
  Finset.card_le_card (line_subset h)

namespace Forest

/-- The line of a parent lacks the child. -/
theorem lineLength_lt (h : s.Forest) (hp : s.parent? child = some parent) :
    s.lineLength parent < s.lineLength child := by
  refine Finset.card_lt_card ⟨line_subset (within_of_parent hp), fun hsub => ?_⟩
  have hself := hsub (mem_line.mpr ⟨parent?_lt hp, .refl⟩)
  exact h.acyclic child parent hp (mem_line.mp hself).2

theorem wellFounded_parent (h : s.Forest) : WellFounded fun p c => s.parent? c = some p :=
  Subrelation.wf (r := InvImage (· < ·) s.lineLength) (fun hp => h.lineLength_lt hp)
    (InvImage.wf _ Nat.lt_wfRel.wf)

/-- What holds of a node once it holds of its children holds of all nodes. -/
theorem descend (h : s.Forest) {motive : NodeId → Prop}
    (step : ∀ id, (∀ c ∈ s.children id, motive c) → motive id) (id : NodeId) : motive id := by
  induction hn : s.size - s.lineLength id using Nat.strongRecOn generalizing id with
  | _ n ih =>
      refine step id fun c hc => ih _ ?_ c rfl
      have hlt := h.lineLength_lt (h.parent?_of_mem hc)
      have hle : s.lineLength c ≤ s.size := lineLength_le_size
      omega

/-! ### Searching below a node -/

theorem mem_preorderFrom (h : s.Forest) (hxy : s.Within x y) {fuel : Nat}
    (hfuel : s.lineLength x ≤ fuel + s.lineLength y) :
    x ∈ s.preorderFrom (fun _ => true) fuel y := by
  -- The induction is on the way from `x` up to `y`; the search takes it from the other end.
  induction hxy generalizing fuel with
  | refl => cases fuel <;> exact List.mem_cons_self
  | tail hbelow hp ih =>
      have hlt := h.lineLength_lt hp
      have hle := Within.lineLength_le hbelow
      cases fuel with
      | zero => omega
      | succ fuel =>
          rw [preorderFrom, if_pos rfl]
          refine List.mem_cons_of_mem _ (List.mem_flatMap.mpr ⟨_, (h.linked _ _).mpr hp, ih ?_⟩)
          omega

/-- The descendants of a node are all that is below it. -/
theorem mem_descendants (h : s.Forest) (hxy : s.Within x y) : x ∈ s.descendants y :=
  h.mem_preorderFrom hxy (lineLength_le_size.trans (Nat.le_add_right _ _))

end Forest

/-! ### Searching along a line -/

theorem Forest.lineLength_pos (h : s.Forest) (hp : s.parent? child = some parent) :
    0 < s.lineLength parent :=
  Finset.card_pos.mpr ⟨parent, mem_line.mpr ⟨h.parent_lt hp, .refl⟩⟩

/-- The line of a node is no longer than the store is large. -/
theorem Forest.ancestryFrom_eq (h : s.Forest) {fuel fuel' : Nat}
    (hfuel : s.lineLength id ≤ fuel + 1) (hfuel' : s.lineLength id ≤ fuel' + 1) :
    s.ancestryFrom fuel id = s.ancestryFrom fuel' id := by
  induction id using h.wellFounded_parent.induction generalizing fuel fuel' with
  | _ id ih =>
      cases hp : s.parent? id with
      | none => cases fuel <;> cases fuel' <;> simp only [ancestryFrom, hp]
      | some parent =>
          have hlt := h.lineLength_lt hp
          have hpos := h.lineLength_pos hp
          obtain ⟨fuel, rfl⟩ : ∃ n, fuel = n + 1 := ⟨fuel - 1, by omega⟩
          obtain ⟨fuel', rfl⟩ : ∃ n, fuel' = n + 1 := ⟨fuel' - 1, by omega⟩
          simp only [ancestryFrom, hp]
          rw [ih parent hp (show s.lineLength parent ≤ fuel + 1 by omega)
            (show s.lineLength parent ≤ fuel' + 1 by omega)]

theorem Forest.ancestry_of_parent (h : s.Forest) (hp : s.parent? id = some parent) :
    s.ancestry id = id :: s.ancestry parent := by
  have hle : s.lineLength id ≤ s.size := lineLength_le_size
  have hlt := h.lineLength_lt hp
  obtain ⟨n, hn⟩ : ∃ n, s.size = n + 1 := ⟨s.size - 1, by omega⟩
  rw [ancestry, hn, ancestryFrom, hp]
  exact congrArg (id :: ·) (h.ancestryFrom_eq (by omega) (by omega))

theorem ancestry_of_none (hp : s.parent? id = none) : s.ancestry id = [id] := by
  rw [ancestry]
  cases s.size with
  | zero => rfl
  | succ n => rw [ancestryFrom, hp]

/-- The nearest of a node and the nodes above it that has one of the given kinds. -/
inductive Nearest (s : Store) (kinds : List Kind) : NodeId → NodeId → Prop where
  | here {id : NodeId} (mem : kinds.contains (s.kind id)) : Nearest s kinds id id
  | above {id parent found : NodeId} (not_mem : kinds.contains (s.kind id) = false)
      (link : s.parent? id = some parent) (nearest : Nearest s kinds parent found) :
      Nearest s kinds id found

theorem Forest.find?_ancestryFrom (h : s.Forest) (hnear : s.Nearest kinds x y) {fuel : Nat}
    (hfuel : s.lineLength x ≤ fuel + 1) :
    (s.ancestryFrom fuel x).find? (fun a => kinds.contains (s.kind a)) = some y := by
  induction hnear generalizing fuel with
  | here mem => cases fuel <;> exact List.find?_cons_of_pos mem
  | @above id parent found not_mem link _ ih =>
      have hlt := h.lineLength_lt link
      have hpos := h.lineLength_pos link
      obtain ⟨fuel, rfl⟩ : ∃ n, fuel = n + 1 := ⟨fuel - 1, by omega⟩
      rw [ancestryFrom, List.find?_cons_of_neg (by simp only [not_mem]; decide), link]
      exact ih (by omega)

/-- The search for an ancestor finds the nearest one. -/
theorem Forest.ancestor?_eq_some (h : s.Forest) (hnear : s.Nearest kinds x y) :
    s.ancestor? x kinds = some y :=
  h.find?_ancestryFrom hnear (lineLength_le_size.trans (Nat.le_succ _))

end ScriptMin.Store
