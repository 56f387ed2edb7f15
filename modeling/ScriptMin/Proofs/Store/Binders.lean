import Mathlib.Data.List.Find
import ScriptMin.Proofs.Store.Bodies
import ScriptMin.Proofs.Store.Uses

/-!
Binders of names. A name is bound by the nearest body around it in which it is local, be it that of
a function or the script. Which body this is is found on the way from one owner to the next.
-/

namespace ScriptMin.Store

variable {s s' : Store} {id owner root F G c d x y : NodeId} {name : String}

/-! ### Nearest bodies -/

instance : Decidable (s.Owner id) := inferInstanceAs (Decidable (id = s.root ∨ s.kind id = .function))

/-- The owner of the nearest body at a node or around it in which a name is local. -/
def binderAt? (s : Store) (name : String) (id : NodeId) : Option NodeId :=
  (s.ancestry id).find? fun owner => decide (s.Owner owner) && (s.view owner).scope.isLocal name

/-- The owner of the body that binds the text of a node. -/
def binder? (s : Store) (id : NodeId) : Option NodeId := s.binderAt? (s.text id) id

theorem exists_ancestry_eq_cons (hs : s.Forest) (id : NodeId) :
    ∃ above, s.ancestry id = id :: above := by
  cases hp : s.parent? id with
  | none => exact ⟨[], ancestry_of_none hp⟩
  | some p => exact ⟨_, hs.ancestry_of_parent hp⟩

/-- An owner binds what is local to its body. -/
theorem binderAt?_of_isLocal (hs : s.Forest) (hG : s.Owner G)
    (hlocal : (s.view G).scope.isLocal name) : s.binderAt? name G = some G := by
  obtain ⟨above, habove⟩ := exists_ancestry_eq_cons hs G
  rw [binderAt?, habove, List.find?_cons_of_pos]
  simp [hG, hlocal]

/-- What is not local at the top is bound nowhere. -/
theorem binderAt?_root (hs : s.Linked) (hlocal : ¬ (s.view s.root).scope.isLocal name) :
    s.binderAt? name s.root = none := by
  rw [binderAt?, ancestry_of_none hs.root_parent, List.find?_singleton]
  simp [hlocal]

theorem not_owner_of_inside (hs : s.Linked) (hx : s.Inside G x) (hfunction : s.kind x ≠ .function) :
    ¬ s.Owner x := by
  rintro (rfl | hkind)
  · exact not_inside_root hs hx
  · exact hfunction hkind

/-- What a node inside a body does not bind itself is bound at the body or around it. -/
theorem binderAt?_of_inside (hs : s.Forest) (hx : s.Inside G x)
    (hnot : ¬ (s.Owner x ∧ (s.view x).scope.isLocal name)) :
    s.binderAt? name x = s.binderAt? name G := by
  have hskip : ∀ {x p}, s.parent? x = some p → ¬ (s.Owner x ∧ (s.view x).scope.isLocal name) →
      s.binderAt? name x = s.binderAt? name p := by
    intro x p hp hnot
    rw [binderAt?, hs.ancestry_of_parent hp, List.find?_cons_of_neg]
    · rfl
    · simpa using hnot
  induction hx with
  | child hc => exact hskip (hs.parent?_of_mem hc) hnot
  | step hinside hfunction hc ih =>
      rw [hskip (hs.parent?_of_mem hc) hnot]
      exact ih fun hand => not_owner_of_inside hs.toLinked hinside hfunction hand.1

/-! ### What scans meet -/

theorem Meets.inside (h : s.Sound) (howner : s.OwnsBody owner) (hd : s.Meets owner d) :
    s.Inside owner d := by
  induction hd with
  | @top c hc =>
      rw [scannedChildren] at hc
      rcases howner with hkind | hkind
      · rw [hkind] at hc
        cases hbody : s.child? owner .body with
        | none =>
            simp only [hbody] at hc
            cases hc
        | some body =>
            simp only [hbody] at hc
            have hscript := h.kind_body hkind hbody
            exact .step (.child (mem_of_child? hbody)) (by simp [hscript]) hc
      · rw [hkind] at hc
        exact .child hc
  | @next d c _ hc ih =>
      refine .step ih ?_ (mem_children_of_scanBelow hc)
      intro hkind
      rw [scanBelow, if_pos (.inr hkind)] at hc
      cases hc

/-- Where a scan goes on depends on the children of a node, on its kind and on their roles. -/
theorem scannedChildren_congr (hfunction : s.kind x ≠ .function) (hkind : s'.kind x = s.kind x)
    (hrow : s'.children x = s.children x) (hrole : ∀ c ∈ s.children x, s'.role? c = s.role? c) :
    s'.scannedChildren x = s.scannedChildren x := by
  have hchild : ∀ role, s'.child? x role = s.child? x role := by
    intro role
    rw [child?, child?, hrow]
    exact List.find?_congr fun c hc => by rw [hrole c hc]
  have hnth : ∀ i, s'.nth? x i = s.nth? x i := fun i => by rw [nth?, nth?, hrow]
  simp only [scannedChildren, hkind, hrow, hnth, hchild]
  split
  · exact absurd ‹_› hfunction
  all_goals rfl

/-- A scan meets the same nodes where the children and their roles are the same. -/
theorem Meets.congr (h : s.Sound) (howner : s.OwnsBody owner)
    (hkind : ∀ y, y = owner ∨ s.Inside owner y → s'.kind y = s.kind y)
    (hrow : ∀ y, y = owner ∨ s.Inside owner y → s'.children y = s.children y)
    (hrole : ∀ y, s.Inside owner y → s'.role? y = s.role? y) (hd : s.Meets owner d) :
    s'.Meets owner d := by
  have hrole' : ∀ y, (s.kind y ≠ .function ∧ s.Inside owner y) ∨ y = owner → ∀ c ∈ s.children y,
      s'.role? c = s.role? c := by
    rintro y (⟨hfunction, hy⟩ | rfl) c hc
    · exact hrole c (.step hy hfunction hc)
    · exact hrole c (.child hc)
  have htop : s'.scannedChildren owner = s.scannedChildren owner := by
    by_cases hfunction : s.kind owner = .function
    · have hbody : s'.child? owner .body = s.child? owner .body := by
        rw [child?, child?, hrow owner (.inl rfl)]
        exact List.find?_congr fun c hc => by rw [hrole' owner (.inr rfl) c hc]
      rw [scannedChildren, scannedChildren, hkind owner (.inl rfl), hfunction, hbody]
      cases hchild : s.child? owner .body with
      | none => rfl
      | some body => exact hrow body (.inr (.child (mem_of_child? hchild)))
    · exact scannedChildren_congr hfunction (hkind owner (.inl rfl)) (hrow owner (.inl rfl))
        (hrole' owner (.inr rfl))
  induction hd with
  | top hc => exact .top (by rwa [htop])
  | @next d c hmeets hc ih =>
      have hinside := hmeets.inside h howner
      refine .next ih ?_
      rw [scanBelow] at hc ⊢
      rw [hkind d (.inr hinside)]
      split at hc
      · cases hc
      case isFalse hnot =>
          have hfunction : s.kind d ≠ .function := fun heq => hnot (.inr heq)
          rw [if_neg hnot, scannedChildren_congr hfunction (hkind d (.inr hinside))
            (hrow d (.inr hinside)) (hrole' d (.inl ⟨hfunction, hinside⟩))]
          exact hc

/-! ### Stores that a scan has been through -/

/-- Every body below the root has the scope that a scan gives it. -/
def Scanned (s : Store) : Prop :=
  ∀ G, s.Owner G → s.Within G s.root → s.scope? G = some (s.view G).scope

/-- Two stores differ in nothing but scopes. -/
structure Alike (s s' : Store) : Prop where
  size_eq : s'.size = s.size
  root_eq : s'.root = s.root
  head_eq : s'.head = s.head
  parent_eq : s'.parent? = s.parent?
  children_eq : s'.children = s.children

theorem alike_scanTree (s : Store) : s.Alike s.scanTree := by
  obtain ⟨hsize, hroot, hnode⟩ := @links_scan s s.root
  exact ⟨hsize, hroot, funext fun x => (hnode x).1, funext fun x => (hnode x).2.1,
    funext fun x => (hnode x).2.2⟩

namespace Alike

variable (h : s.Alike s')

include h

theorem kind_eq : s'.kind = s.kind := by
  funext x
  rw [kind, h.head_eq]
  rfl

theorem viewFrom_eq (depth : Nat) : s'.viewFrom depth = s.viewFrom depth := by
  induction depth with
  | zero =>
      funext x
      rw [viewFrom, viewFrom, h.head_eq]
  | succ depth ih =>
      funext x
      rw [viewFrom, viewFrom, h.head_eq, h.children_eq, ih]

theorem view_eq : s'.view = s.view := by
  funext x
  rw [view, view, h.size_eq, h.viewFrom_eq]

theorem preorderFrom_eq (enter : NodeId → Bool) (depth : Nat) :
    s'.preorderFrom enter depth = s.preorderFrom enter depth := by
  induction depth with
  | zero =>
      funext x
      rfl
  | succ depth ih =>
      funext x
      rw [preorderFrom, preorderFrom, h.children_eq, ih]

theorem bodyNodes_eq : s'.bodyNodes = s.bodyNodes := by
  funext x
  rw [bodyNodes, bodyNodes, h.children_eq, h.size_eq, h.kind_eq, h.preorderFrom_eq]

theorem ancestryFrom_eq (fuel : Nat) : s'.ancestryFrom fuel = s.ancestryFrom fuel := by
  induction fuel with
  | zero =>
      funext x
      rfl
  | succ fuel ih =>
      funext x
      rw [ancestryFrom, ancestryFrom, h.parent_eq, ih]

theorem owner_iff : s'.Owner id ↔ s.Owner id := by rw [Owner, Owner, h.root_eq, h.kind_eq]

theorem binderAt?_eq : s'.binderAt? = s.binderAt? := by
  funext name x
  simp only [binderAt?, ancestry, h.size_eq, h.ancestryFrom_eq, h.view_eq, h.owner_iff]

theorem within_iff : s'.Within x y ↔ s.Within x y := by rw [Within, h.parent_eq]; rfl

end Alike

/-- After a scan the script and every function below it have their scopes. -/
theorem scanned_scanTree (hs : s.Forest) (h : s.Sound) : s.scanTree.Scanned := by
  have halike := alike_scanTree s
  intro G hG hwithin
  rw [halike.within_iff, halike.root_eq] at hwithin
  rw [halike.view_eq]
  exact scope?_scanTree hs h (halike.owner_iff.mp hG) hwithin

end ScriptMin.Store
