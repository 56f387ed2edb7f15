import ScriptMin.Proofs.Store.Occurrences
import ScriptMin.Proofs.Tree.Counting

/-!
Scans as runs. The nodes that the scan of a body meets come one after the other, each of them once,
and what the scan records is what they record in turn.
-/

namespace ScriptMin.Store

variable {s : Store} {id owner c d p x y : NodeId} {name : String} {scope : Scope} {depth : Nat}
  {ids : List NodeId}

/-! ### The nodes that a scan meets -/

/-- The nodes below a node that a scan meets, each of them before what is below it. -/
def metBelow (s : Store) : Nat → NodeId → List NodeId
  | 0, _ => []
  | depth + 1, id => (s.scanBelow id).flatMap fun c => c :: metBelow s depth c

def met (s : Store) (owner : NodeId) : List NodeId :=
  (s.scannedChildren owner).flatMap fun c => c :: s.metBelow s.size c

theorem scanBelow_eq_nil (hs : s.Forest) (hline : s.size ≤ s.lineLength id) :
    s.scanBelow id = [] := by
  refine List.eq_nil_iff_forall_not_mem.mpr fun c hc => ?_
  have hmem := mem_children_of_scanBelow hc
  rw [hs.children_eq_nil hline] at hmem
  cases hmem

/-- What a scan meets below a node is at one of its children or below. -/
theorem exists_of_mem_metBelow (hs : s.Linked) (hx : x ∈ s.metBelow depth id) :
    ∃ c ∈ s.children id, s.Within x c := by
  induction depth generalizing id with
  | zero => cases hx
  | succ depth ih =>
      obtain ⟨c, hc, hx⟩ := List.mem_flatMap.mp hx
      refine ⟨c, mem_children_of_scanBelow hc, ?_⟩
      rcases List.mem_cons.mp hx with rfl | hx
      · exact .refl
      · obtain ⟨d, hd, hwithin⟩ := ih hx
        exact hwithin.trans (within_of_parent (hs.parent?_of_mem hd))

theorem within_of_mem_metBelow (hs : s.Linked) (hx : x ∈ id :: s.metBelow depth id) :
    s.Within x id := by
  rcases List.mem_cons.mp hx with rfl | hx
  · exact .refl
  · obtain ⟨c, hc, hwithin⟩ := exists_of_mem_metBelow hs hx
    exact hwithin.trans (within_of_parent (hs.parent?_of_mem hc))

/-- A scan goes on from the nodes that it meets. -/
theorem mem_metBelow_of_scanBelow (hs : s.Forest) (hdepth : s.size ≤ s.lineLength id + depth)
    (hd : d ∈ id :: s.metBelow depth id) (hc : c ∈ s.scanBelow d) : c ∈ s.metBelow depth id := by
  induction depth generalizing id with
  | zero =>
      rw [List.mem_singleton.mp hd, scanBelow_eq_nil hs hdepth] at hc
      cases hc
  | succ depth ih =>
      refine List.mem_flatMap.mpr ?_
      rcases List.mem_cons.mp hd with rfl | hd
      · exact ⟨c, hc, List.mem_cons_self⟩
      · obtain ⟨e, he, hd⟩ := List.mem_flatMap.mp hd
        have hlt := hs.lineLength_lt (hs.parent?_of_mem (mem_children_of_scanBelow he))
        exact ⟨e, he, List.mem_cons_of_mem _ (ih (by omega) hd)⟩

theorem meets_of_mem_metBelow (hid : s.Meets owner id) (hx : x ∈ s.metBelow depth id) :
    s.Meets owner x := by
  induction depth generalizing id with
  | zero => cases hx
  | succ depth ih =>
      obtain ⟨c, hc, hx⟩ := List.mem_flatMap.mp hx
      rcases List.mem_cons.mp hx with rfl | hx
      · exact hid.next hc
      · exact ih (hid.next hc) hx

theorem mem_met (hs : s.Forest) : x ∈ s.met owner ↔ s.Meets owner x := by
  rw [met, List.mem_flatMap]
  constructor
  · rintro ⟨c, hc, hx⟩
    rcases List.mem_cons.mp hx with rfl | hx
    · exact .top hc
    · exact meets_of_mem_metBelow (.top hc) hx
  · intro h
    induction h with
    | top hc => exact ⟨_, hc, List.mem_cons_self⟩
    | next _ hc ih =>
        obtain ⟨e, he, hd⟩ := ih
        have hbelow := mem_metBelow_of_scanBelow hs (Nat.le_add_left _ _) hd hc
        exact ⟨e, he, List.mem_cons_of_mem _ hbelow⟩

/-! ### Each node once -/

theorem Linked.nodup_scannedChildren (hs : s.Linked) : (s.scannedChildren id).Nodup := by
  have htoList : ∀ o : Option NodeId, o.toList.Nodup := by
    rintro (_ | _)
    · exact List.nodup_nil
    · exact List.nodup_singleton _
  rw [scannedChildren]
  split
  case h_1 =>
      split
      · exact hs.nodup _
      · exact List.nodup_nil
  case h_2 | h_3 | h_4 => exact htoList _
  case h_5 =>
      refine (htoList _).append (htoList _) fun c hguard hblock => ?_
      have hrole := role?_of_child? (Option.mem_toList.mp hguard)
      rw [role?_of_child? (Option.mem_toList.mp hblock)] at hrole
      cases hrole
  case h_6 => exact hs.nodup _

theorem Linked.nodup_scanBelow (hs : s.Linked) : (s.scanBelow id).Nodup := by
  rw [scanBelow]
  split
  · exact List.nodup_nil
  · exact hs.nodup_scannedChildren

theorem nodup_metBelow (hs : s.Forest) : (s.metBelow depth id).Nodup := by
  induction depth generalizing id with
  | zero => exact List.nodup_nil
  | succ depth ih =>
      have hlink : ∀ c ∈ s.scanBelow id, s.parent? c = some id := fun c hc =>
        hs.parent?_of_mem (mem_children_of_scanBelow hc)
      refine hs.nodup_flatMap hs.nodup_scanBelow hlink (fun c _ => ?_) fun c _ x hx =>
        within_of_mem_metBelow hs.toLinked hx
      refine List.nodup_cons.mpr ⟨fun hself => ?_, ih⟩
      obtain ⟨e, he, hwithin⟩ := exists_of_mem_metBelow hs.toLinked hself
      exact hs.not_within_child he hwithin

theorem nodup_met (hs : s.Forest) (h : s.Sound) (howner : s.OwnsBody owner) :
    (s.met owner).Nodup := by
  obtain ⟨body, -, hchildren⟩ := h.exists_script howner
  refine hs.nodup_flatMap hs.nodup_scannedChildren (fun c hc => hs.parent?_of_mem (hchildren c hc))
    (fun c _ => ?_) fun c _ x hx => within_of_mem_metBelow hs.toLinked hx
  refine List.nodup_cons.mpr ⟨fun hself => ?_, nodup_metBelow hs⟩
  obtain ⟨e, he, hwithin⟩ := exists_of_mem_metBelow hs.toLinked hself
  exact hs.not_within_child he hwithin

/-! ### What the nodes record in turn -/

def isMember (s : Store) (id : NodeId) : Bool := s.parentKind? id == some .dot

/-- What has been recorded once a scan has met a node. -/
def recordMet (s : Store) (scope : Scope) (id : NodeId) : Scope :=
  Tree.recordOwn (s.isMember id) (s.isClause id) (s.view id) scope

theorem isMember_of_mem (hs : s.Forest) (hc : c ∈ s.children id) :
    s.isMember c = (s.kind id == .dot) := by
  rw [isMember, parentKind?, hs.parent?_of_mem hc]
  rfl

theorem recordAll_eq_foldl (hs : s.Forest) (hids : ∀ c ∈ ids, c ∈ s.children p)
    (hrecord : ∀ c ∈ ids, ∀ scope, Tree.record (s.isMember c) (s.isClause c) (s.view c) scope =
      (c :: s.metBelow depth c).foldl s.recordMet scope) :
    Tree.recordAll (s.kind p) (ids.map s.view) scope =
      (ids.flatMap fun c => c :: s.metBelow depth c).foldl s.recordMet scope := by
  rw [Tree.recordAll, List.foldl_map, List.foldl_flatMap]
  refine List.foldl_ext _ _ _ fun scope c hc => ?_
  rw [← isMember_of_mem hs (hids c hc), ← isClause_of_mem hs (hids c hc)]
  exact hrecord c hc scope

theorem record_eq_foldl (hs : s.Forest) (hdepth : s.size ≤ s.lineLength id + depth) :
    Tree.record (s.isMember id) (s.isClause id) (s.view id) scope =
      (id :: s.metBelow depth id).foldl s.recordMet scope := by
  rw [record_view hs]
  induction depth generalizing id scope with
  | zero =>
      rw [scanBelow_eq_nil hs hdepth]
      rfl
  | succ depth ih =>
      refine recordAll_eq_foldl hs (fun c hc => mem_children_of_scanBelow hc) fun c hc scope => ?_
      have hlt := hs.lineLength_lt (hs.parent?_of_mem (mem_children_of_scanBelow hc))
      rw [record_view hs]
      exact ih (by omega)

/-- A scan records what the nodes record in turn that it meets. -/
theorem recorded_eq_foldl (hs : s.Forest) (h : s.Sound) (howner : s.OwnsBody owner) :
    s.recorded owner = (s.met owner).foldl s.recordMet (s.startScope owner) := by
  obtain ⟨body, hkind, hchildren⟩ := h.exists_script howner
  rw [recorded, ← hkind]
  exact recordAll_eq_foldl hs hchildren fun c _ scope =>
    record_eq_foldl hs (Nat.le_add_left _ _)

/-- What the nodes of a run bring about one by one, the run brings about. -/
theorem foldl_recordMet_iff {P : Scope → Prop} {own : NodeId → Prop}
    (hown : ∀ x ∈ ids, ∀ scope, P (s.recordMet scope x) ↔ P scope ∨ own x) :
    P (ids.foldl s.recordMet scope) ↔ P scope ∨ ∃ x ∈ ids, own x := by
  induction ids generalizing scope with
  | nil => simp
  | cons id rest ih =>
      rw [List.forall_mem_cons] at hown
      rw [List.foldl_cons, ih hown.2, hown.1, or_assoc]
      simp

end ScriptMin.Store
