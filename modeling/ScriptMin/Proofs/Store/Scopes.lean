import ScriptMin.Proofs.Store.Sound
import ScriptMin.Proofs.Store.Views
import ScriptMin.Proofs.Tree.Recording

/-!
Scopes in stores. What the scan of a body records is told node by node: a body has a name for its
own if one of the nodes that the scan meets declares it, and it uses the names of the nodes that
the scan meets and the names that nested functions use and do not declare.
-/

namespace ScriptMin.Store

variable {s : Store} {id owner c d : NodeId} {inChain : Bool} {x : String}

/-! ### Following a scan -/

/-- The children that the scan of a body goes into, other than those of nested functions. -/
def scanBelow (s : Store) (id : NodeId) : List NodeId :=
  if s.kind id = .identifier ∨ s.kind id = .function then [] else s.scannedChildren id

/-- The scan of a body meets a node. -/
inductive Meets (s : Store) (owner : NodeId) : NodeId → Prop where
  | top {c : NodeId} (mem : c ∈ s.scannedChildren owner) : Meets s owner c
  | next {d c : NodeId} (meets : Meets s owner d) (mem : c ∈ s.scanBelow d) : Meets s owner c

def isClause (s : Store) (id : NodeId) : Bool := s.parentKind? id == some .compTail

theorem find?_view (hs : s.Forest) (id : NodeId) (role : Role) :
    ((s.children id).map s.view).find? (fun c => c.head.role == some role) =
      (s.child? id role).map s.view := by
  rw [← hs.child?_view, Tree.child?, hs.children_view]

/-- A scan goes into all children of a node, unless some of them are names that are no uses. -/
theorem scannedChildren_eq (hfunction : s.kind id ≠ .function) (hdot : s.kind id ≠ .dot)
    (hproperty : s.kind id ≠ .propertyInit) (hdeclaration : s.kind id ≠ .declaration)
    (hcatch : s.kind id ≠ .catchClause) : s.scannedChildren id = s.children id := by
  rw [scannedChildren]
  split
  case h_1 hkind => exact absurd hkind hfunction
  case h_2 hkind => exact absurd hkind hdot
  case h_3 hkind => exact absurd hkind hproperty
  case h_4 hkind => exact absurd hkind hdeclaration
  case h_5 hkind => exact absurd hkind hcatch
  case h_6 => rfl

theorem scanned_view (hs : s.Forest) (id : NodeId) :
    Tree.scanned (s.head id) ((s.children id).map s.view) = (s.scanBelow id).map s.view := by
  have htoList : ∀ o : Option NodeId, (o.map s.view).toList = o.toList.map s.view := by
    rintro (_ | _) <;> rfl
  rw [Tree.scanned, scanBelow, show (s.head id).kind = s.kind id from rfl]
  simp only [find?_view hs, List.getElem?_map, htoList, ← List.map_append]
  split
  case h_1 hkind =>
      rw [if_pos (.inl hkind)]
      rfl
  case h_2 hkind =>
      rw [if_pos (.inr hkind)]
      rfl
  case h_7 hname hfunction hdot hproperty hdeclaration hcatch =>
      rw [if_neg (not_or.mpr ⟨hname, hfunction⟩),
        scannedChildren_eq hfunction hdot hproperty hdeclaration hcatch]
  case h_3 hkind =>
      rw [scannedChildren, hkind, if_neg (by decide)]
      rfl
  case h_4 hkind =>
      rw [scannedChildren, hkind, if_neg (by decide)]
      rfl
  case h_5 hkind => rw [scannedChildren, hkind, if_neg (by decide)]
  case h_6 hkind => rw [scannedChildren, hkind, if_neg (by decide)]

/-- A node records something of its own, and then what the children record that the scan goes
into. -/
theorem record_view (hs : s.Forest) {inTail : Bool} {scope : Scope} :
    Tree.record inChain inTail (s.view id) scope =
      Tree.recordAll (s.kind id) ((s.scanBelow id).map s.view)
        (Tree.recordOwn inChain inTail (s.view id) scope) := by
  rw [hs.view_eq_node, Tree.record_eq, scanned_view hs]
  rfl

variable {P : Scope → Prop}

theorem mem_children_of_scanBelow (hc : c ∈ s.scanBelow id) : c ∈ s.children id := by
  rw [scanBelow] at hc
  split at hc
  · cases hc
  case isFalse hkind =>
      rw [scannedChildren] at hc
      split at hc
      case h_1 h => exact absurd (.inr h) hkind
      case h_2 | h_3 => exact List.mem_of_getElem? (Option.mem_toList.mp hc)
      case h_4 => exact List.mem_of_find?_eq_some (Option.mem_toList.mp hc)
      case h_5 =>
          rcases List.mem_append.mp hc with hc | hc <;>
            exact List.mem_of_find?_eq_some (Option.mem_toList.mp hc)
      case h_6 => exact hc

theorem isClause_of_mem (hs : s.Forest) (hc : c ∈ s.children id) :
    s.isClause c = (s.kind id == .compTail) := by
  rw [isClause, parentKind?, hs.parent?_of_mem hc]
  rfl

section

variable {P : Scope → Prop} (hs : s.Forest)
  (hown : ∀ d, s.Meets owner d → ∀ inChain scope, P scope →
    P (Tree.recordOwn inChain (s.isClause d) (s.view d) scope))

include hs

theorem recordAll_keeps {ids : List NodeId} (hids : ∀ c ∈ ids, c ∈ s.children id)
    (hrecord : ∀ c ∈ ids, ∀ inChain scope, P scope →
      P (Tree.record inChain (s.isClause c) (s.view c) scope)) {scope : Scope} (h : P scope) :
    P (Tree.recordAll (s.kind id) (ids.map s.view) scope) := by
  rw [Tree.recordAll, List.foldl_map]
  refine List.foldlRecOn ids _ h fun scope hscope c hc => ?_
  rw [← isClause_of_mem hs (hids c hc)]
  exact hrecord c hc _ scope hscope

include hown

/-- What no node that the scan meets changes, recording such a node does not change. -/
theorem record_keeps (d : NodeId) : s.Meets owner d → ∀ inChain scope, P scope →
    P (Tree.record inChain (s.isClause d) (s.view d) scope) := by
  induction d using hs.descend with
  | step d ih =>
      intro hd inChain scope h
      rw [record_view hs]
      refine recordAll_keeps hs (fun c hc => mem_children_of_scanBelow hc) ?_ (hown d hd _ _ h)
      exact fun c hc => ih c (mem_children_of_scanBelow hc) (hd.next hc)

theorem recordAll_reaches {ids : List NodeId} (hids : ∀ c ∈ ids, c ∈ s.children id)
    (hmeets : ∀ c ∈ ids, s.Meets owner c) (hc : c ∈ ids)
    (hrecord : ∀ inChain scope, P (Tree.record inChain (s.isClause c) (s.view c) scope))
    (scope : Scope) : P (Tree.recordAll (s.kind id) (ids.map s.view) scope) := by
  obtain ⟨before, behind, rfl⟩ := List.append_of_mem hc
  have hfirst : P (Tree.recordAll (s.kind id) ((before ++ [c]).map s.view) scope) := by
    rw [List.map_append, Tree.recordAll, List.foldl_append, ← isClause_of_mem hs (hids c hc)]
    exact hrecord _ _
  rw [← List.singleton_append, ← List.append_assoc, List.map_append, Tree.recordAll,
    List.foldl_append]
  have hbehind : ∀ c' ∈ behind, c' ∈ before ++ c :: behind := fun c' hc' =>
    List.mem_append_right _ (List.mem_cons_of_mem _ hc')
  refine recordAll_keeps hs (fun c' hc' => hids c' (hbehind c' hc')) (fun c' hc' => ?_) hfirst
  exact record_keeps hs hown c' (hmeets c' (hbehind c' hc'))

/-- What a node brings about whatever has been recorded before, recording the node above it does. -/
theorem record_reaches {c : NodeId} (hd : s.Meets owner d) (hc : c ∈ s.scanBelow d)
    (hrecord : ∀ inChain scope, P (Tree.record inChain (s.isClause c) (s.view c) scope))
    (inChain : Bool) (scope : Scope) :
    P (Tree.record inChain (s.isClause d) (s.view d) scope) := by
  rw [record_view hs]
  exact recordAll_reaches hs hown (fun c hc => mem_children_of_scanBelow hc)
    (fun c hc => hd.next hc) hc hrecord _

end

/-! ### Bodies -/

/-- A node owns a body: it is a function or a script. -/
def OwnsBody (s : Store) (id : NodeId) : Prop := s.kind id = .function ∨ s.kind id = .script

def startScope (s : Store) (owner : NodeId) : Scope :=
  if s.kind owner = .function then
    Tree.functionStart (s.head owner) ((s.children owner).map s.view)
  else {}

/-- What the scan of a body has recorded before it draws conclusions. -/
def recorded (s : Store) (owner : NodeId) : Scope :=
  Tree.recordAll .script ((s.scannedChildren owner).map s.view) (s.startScope owner)

/-- The statements of a body are the children of a script. -/
theorem Sound.exists_script (h : s.Sound) (howner : s.OwnsBody owner) :
    ∃ body, s.kind body = .script ∧ ∀ c ∈ s.scannedChildren owner, c ∈ s.children body := by
  rcases howner with hkind | hkind
  · rw [scannedChildren, hkind]
    cases hbody : s.child? owner .body with
    | none => exact ⟨s.root, h.root_kind, nofun⟩
    | some body => exact ⟨body, h.kind_body hkind hbody, fun c hc => hc⟩
  · refine ⟨owner, hkind, fun c hc => ?_⟩
    rwa [scannedChildren, hkind] at hc

/-- The scope of a body draws the conclusions from what its statements record. -/
theorem scope_view (hs : s.Forest) (h : s.Sound) (howner : s.OwnsBody owner) :
    (s.view owner).scope = (s.recorded owner).finish := by
  rw [hs.view_eq_node, Tree.scope, recorded, startScope, scannedChildren,
    show (s.head owner).kind = s.kind owner from rfl]
  rcases howner with hkind | hkind
  · rw [if_pos hkind, if_pos hkind, hkind, Tree.recordBody_eq, find?_view hs]
    dsimp only
    cases hbody : s.child? owner .body with
    | none => rfl
    | some body =>
        have hscript := h.kind_body hkind hbody
        simp only [Option.map_some, kind_view, hscript, hs.children_view]
        rw [Tree.recordList_eq (by decide)]
  · rw [hkind, if_neg (by decide), if_neg (by decide), Tree.recordList_eq (by decide)]

section

variable {P : Scope → Prop} (hs : s.Forest) (h : s.Sound) (howner : s.OwnsBody owner)
  (hown : ∀ d, s.Meets owner d → ∀ inChain scope, P scope →
    P (Tree.recordOwn inChain (s.isClause d) (s.view d) scope))

include hs h howner hown

theorem recorded_keeps (hstart : P (s.startScope owner)) : P (s.recorded owner) := by
  obtain ⟨body, hkind, hchildren⟩ := h.exists_script howner
  rw [recorded, ← hkind]
  exact recordAll_keeps hs hchildren (fun c hc => record_keeps hs hown c (.top hc)) hstart

/-- What a node that the scan meets brings about is brought about in the end. -/
theorem recorded_reaches (hd : s.Meets owner d)
    (hbrings : ∀ inChain scope, P (Tree.recordOwn inChain (s.isClause d) (s.view d) scope)) :
    P (s.recorded owner) := by
  have hrecord : ∀ inChain scope, P (Tree.record inChain (s.isClause d) (s.view d) scope) := by
    intro inChain scope
    rw [record_view hs]
    refine recordAll_keeps hs (fun c hc => mem_children_of_scanBelow hc) ?_ (hbrings _ _)
    exact fun c hc => record_keeps hs hown c (hd.next hc)
  clear hbrings
  -- The way leads from the node up to the statements of the body.
  induction hd with
  | top hc =>
      obtain ⟨body, hkind, hchildren⟩ := h.exists_script howner
      rw [recorded, ← hkind]
      exact recordAll_reaches hs hown hchildren (fun c hc => .top hc) hc hrecord _
  | next hmeets hc ih => exact ih (record_reaches hs hown hmeets hc hrecord)

end

/-! ### What a body declares and uses -/

section

variable (hs : s.Forest) (h : s.Sound) (howner : s.OwnsBody owner)

include hs h howner

/-- A body declares what it starts with and what the nodes declare that its scan meets. -/
theorem mem_declared_scope : x ∈ (s.view owner).scope.declared ↔
    x ∈ (s.startScope owner).declared ∨
      ∃ d, s.Meets owner d ∧ x ∈ Tree.ownNames (s.isClause d) (s.view d) := by
  rw [scope_view hs h howner]
  constructor
  · refine recorded_keeps (P := fun scope => x ∈ scope.declared → _) hs h howner ?_ .inl
    intro d hd inChain scope hscope hx
    rw [Tree.declared_recordOwn, NameSet.mem_insertAll] at hx
    exact hx.elim (fun hx => .inr ⟨d, hd, hx⟩) hscope
  · have hkeeps : ∀ d, s.Meets owner d → ∀ inChain scope, x ∈ scope.declared →
        x ∈ (Tree.recordOwn inChain (s.isClause d) (s.view d) scope).declared := by
      intro d _ inChain scope hx
      rw [Tree.declared_recordOwn, NameSet.mem_insertAll]
      exact .inr hx
    rintro (hstart | ⟨d, hd, hx⟩)
    · exact recorded_keeps (P := fun scope => x ∈ scope.declared) hs h howner hkeeps hstart
    · refine recorded_reaches (P := fun scope => x ∈ scope.declared) hs h howner hkeeps hd ?_
      intro inChain scope
      rw [Tree.declared_recordOwn, NameSet.mem_insertAll]
      exact .inl hx

theorem params_scope : (s.view owner).scope.params = (s.startScope owner).params := by
  rw [scope_view hs h howner]
  refine recorded_keeps (P := fun scope => scope.params = (s.startScope owner).params) hs h howner
    ?_ rfl
  intro d _ inChain scope hscope
  rw [Tree.params_recordOwn, hscope]

/-- A body shares what a node uses that its scan meets, unless it is local. -/
theorem shares_scope (hd : s.Meets owner d)
    (huses : ∀ inChain scope,
      (Tree.recordOwn inChain (s.isClause d) (s.view d) scope).Accesses x)
    (hlocal : ¬ (s.view owner).scope.isLocal x) : (s.view owner).scope.Shares x := by
  have hscope := scope_view hs h howner
  rw [hscope] at hlocal ⊢
  refine Scope.shares_finish.mpr ⟨?_, hlocal⟩
  exact recorded_reaches (P := fun scope => scope.Accesses x) hs h howner
    (fun d _ inChain scope => Tree.accesses_recordOwn) hd huses

/-- A body shares what a name uses that its scan meets, unless it is local. -/
theorem shares_name (hd : s.Meets owner d) (hkind : s.kind d = .identifier)
    (hlocal : ¬ (s.view owner).scope.isLocal (s.text d)) :
    (s.view owner).scope.Shares (s.text d) := by
  refine shares_scope hs h howner hd (fun inChain scope => ?_) hlocal
  refine (Tree.accesses_recordOwn_identifier (by rwa [kind_view])).mpr (.inl ?_)
  rw [head_view]
  rfl

/-- A body shares what a nested function shares, unless it is local. -/
theorem shares_nested (hd : s.Meets owner d) (hkind : s.kind d = .function)
    (hshares : (s.view d).scope.Shares x) (hlocal : ¬ (s.view owner).scope.isLocal x) :
    (s.view owner).scope.Shares x :=
  shares_scope hs h howner hd (fun _ _ =>
    (Tree.accesses_recordOwn_function (by rwa [kind_view])).mpr (.inl hshares)) hlocal

end

end ScriptMin.Store
