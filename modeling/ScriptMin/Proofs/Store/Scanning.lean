import ScriptMin.Proofs.Store.Owners

/-!
Scans of whole trees. A scan reaches every function below the root and gives it the scope that
its body has. It changes nothing else.
-/

namespace ScriptMin.Store

variable {s : Store} {id other owner c d p F : NodeId}

/-! ### Owners of bodies -/

theorem Inside.lineLength_lt (hs : s.Forest) (h : s.Inside owner d) :
    s.lineLength owner < s.lineLength d := by
  induction h with
  | child hc => exact hs.lineLength_lt (hs.parent?_of_mem hc)
  | step _ _ hc ih => exact ih.trans (hs.lineLength_lt (hs.parent?_of_mem hc))

/-- Every node below the root is inside the body of a function or of the script. -/
theorem Forest.exists_inside (hs : s.Forest) (hd : s.Within d s.root) (hne : d ≠ s.root) :
    ∃ owner, (owner = s.root ∨ s.kind owner = .function) ∧ s.Within owner s.root ∧
      s.Inside owner d := by
  induction d using hs.wellFounded_parent.induction with
  | _ d ih =>
      obtain ⟨p, hp, hroot⟩ := hd.cases.resolve_left hne
      have hmem := (hs.linked p d).mpr hp
      by_cases hp_root : p = s.root
      · exact ⟨p, .inl hp_root, hroot, .child hmem⟩
      by_cases hfunction : s.kind p = .function
      · exact ⟨p, .inr hfunction, hroot, .child hmem⟩
      obtain ⟨owner, howner, hwithin, hinside⟩ := ih p hp hroot hp_root
      exact ⟨owner, howner, hwithin, .step hinside hfunction hmem⟩

theorem Sound.ownsBody (h : s.Sound) (howner : owner = s.root ∨ s.kind owner = .function) :
    s.OwnsBody owner :=
  howner.elim (fun heq => .inr (heq ▸ h.root_kind)) .inl

/-! ### What a scan reaches -/

/-- A scan of the whole tree goes from a node to a child, or from a function to a statement. -/
def Scans (s : Store) (p c : NodeId) : Prop := c ∈ s.scannedChildren p

theorem Scans.lineLength_lt (hs : s.Forest) (h : s.Scans p c) :
    s.lineLength p < s.lineLength c := by
  by_cases hkind : s.kind p = .function
  · rw [Scans, scannedChildren, hkind] at h
    cases hbody : s.child? p .body with
    | none =>
        simp only [hbody] at h
        cases h
    | some body =>
        simp only [hbody] at h
        have hbody' := hs.lineLength_lt (hs.parent?_of_mem (mem_of_child? hbody))
        exact hbody'.trans (hs.lineLength_lt (hs.parent?_of_mem h))
  · refine hs.lineLength_lt (hs.parent?_of_mem ?_)
    by_cases hname : s.kind p = .identifier
    · rwa [Scans, scannedChildren_eq (by simp [hname]) (by simp [hname]) (by simp [hname])
        (by simp [hname]) (by simp [hname])] at h
    · refine mem_children_of_scanBelow ?_
      rwa [scanBelow, if_neg (not_or.mpr ⟨hname, hkind⟩)]

theorem lineLength_le_of_scans (hs : s.Forest) (h : Relation.ReflTransGen s.Scans p c) :
    s.lineLength p ≤ s.lineLength c := by
  induction h with
  | refl => exact Nat.le_refl _
  | tail _ hlast ih => exact ih.trans (hlast.lineLength_lt hs).le

theorem Meets.scans (h : s.Meets owner d) : Relation.ReflTransGen s.Scans owner d := by
  induction h with
  | top hc => exact .single hc
  | next _ hc ih =>
      refine ih.tail ?_
      rw [scanBelow] at hc
      split at hc
      · cases hc
      · exact hc

/-- A scan gets from the root to every function below it. -/
theorem Sound.scans_function (h : s.Sound) (hs : s.Forest) (hF : s.kind F = .function)
    (hwithin : s.Within F s.root) : Relation.ReflTransGen s.Scans s.root F := by
  induction hn : s.lineLength F using Nat.strongRecOn generalizing F with
  | _ n ih =>
      obtain ⟨owner, howner, hroot, hinside⟩ :=
        hs.exists_inside hwithin (h.ne_root_of_kind (by simp [hF]))
      have hmeets := hinside.meets h (h.ownsBody howner) (by rw [hF]; rfl)
      rcases howner with rfl | hfunction
      · exact hmeets.scans
      · exact (ih _ (hn ▸ hinside.lineLength_lt hs) hfunction hroot rfl).trans hmeets.scans

theorem mem_scannedFunctions (hs : s.Forest) (hpath : Relation.ReflTransGen s.Scans id F)
    (hF : s.kind F = .function) {fuel : Nat} (hfuel : s.lineLength F < fuel + s.lineLength id) :
    F ∈ s.scannedFunctions fuel id := by
  induction hpath using Relation.ReflTransGen.head_induction_on generalizing fuel with
  | refl =>
      obtain ⟨fuel, rfl⟩ : ∃ n, fuel = n + 1 := ⟨fuel - 1, by omega⟩
      rw [scannedFunctions, if_pos hF]
      exact List.mem_cons_self
  | @head id c hstep hrest ih =>
      have hlt := hstep.lineLength_lt hs
      have hle := lineLength_le_of_scans hs hrest
      obtain ⟨fuel, rfl⟩ : ∃ n, fuel = n + 1 := ⟨fuel - 1, by omega⟩
      have hfuel' : s.lineLength F < fuel + s.lineLength c := by omega
      have hbelow := List.mem_flatMap.mpr ⟨c, hstep, ih hfuel'⟩
      rw [scannedFunctions]
      split
      · exact List.mem_cons_of_mem _ hbelow
      · exact hbelow

theorem mem_scanOwners (hs : s.Forest) (h : s.Sound) (hF : s.kind F = .function)
    (hwithin : s.Within F s.root) : F ∈ s.scanOwners s.root := by
  have hroot : s.kind s.root ≠ .function := by simp [h.root_kind]
  rcases (h.scans_function hs hF hwithin).cases_head with heq | ⟨c, hc, hpath⟩
  · exact absurd (heq ▸ hF) hroot
  · rw [Scans, scannedChildren, h.root_kind] at hc
    rw [scanOwners, if_neg hroot]
    refine List.mem_cons_of_mem _ (List.mem_flatMap.mpr ⟨c, hc, mem_scannedFunctions hs hpath hF ?_⟩)
    have hle : s.lineLength F ≤ s.size := lineLength_le_size
    omega

/-! ### What a scan leaves -/

/-- The script and every function below it have the scopes of their bodies. -/
theorem scope?_scanTree (hs : s.Forest) (h : s.Sound) (hF : s.Owner F)
    (hwithin : s.Within F s.root) : s.scanTree.scope? F = some (s.view F).scope := by
  have hlt : F < s.size := hF.lt h.toLinked
  have hmem : F ∈ s.scanOwners s.root := by
    rcases hF with rfl | hkind
    · exact List.mem_cons_self
    · exact mem_scanOwners hs h hkind hwithin
  have hfold : ∀ (owners : List NodeId) (acc : Store), acc.size = s.size →
      (F ∈ owners ∨ acc.scope? F = some (s.view F).scope) →
      (owners.foldl (fun acc owner => acc.setScope owner (some (s.view owner).scope)) acc).scope? F =
        some (s.view F).scope := by
    intro owners
    induction owners with
    | nil => exact fun acc _ hacc => hacc.resolve_left List.not_mem_nil
    | cons owner rest ih =>
        intro acc hsize hacc
        refine ih _ ((size_setScope _).trans hsize) ?_
        rw [scope?_setScope]
        by_cases heq : F = owner
        · rw [if_pos ⟨heq, by rw [hsize, ← heq]; exact hlt⟩, heq]
          exact .inr rfl
        · rw [if_neg fun hand => heq hand.1]
          exact hacc.imp_left fun hmem => (List.mem_cons.mp hmem).resolve_left heq
  rw [scanTree, scan_eq]
  exact hfold _ s rfl (.inl hmem)

/-- A scan changes nothing but scopes. -/
theorem links_scan : (s.scan id).size = s.size ∧ (s.scan id).root = s.root ∧
    ∀ other, (s.scan id).head other = s.head other ∧
      (s.scan id).parent? other = s.parent? other ∧
      (s.scan id).children other = s.children other := by
  rw [scan_eq]
  refine List.foldlRecOn (motive := fun acc : Store => acc.size = s.size ∧ acc.root = s.root ∧
    ∀ other, acc.head other = s.head other ∧ acc.parent? other = s.parent? other ∧
      acc.children other = s.children other) _ _ ⟨rfl, rfl, fun _ => ⟨rfl, rfl, rfl⟩⟩ ?_
  intro acc hacc owner _
  obtain ⟨hsize, hroot, hnode⟩ := hacc
  refine ⟨(size_setScope _).trans hsize, hroot, fun other => ?_⟩
  rw [head_setScope, parent?_setScope, children_setScope]
  exact hnode other

end ScriptMin.Store
