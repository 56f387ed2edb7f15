import ScriptMin.Proofs.Store.Rewriting
import ScriptMin.Proofs.Tree.Parts

/-!
Preparing what takes the place of a node. Edits build new trees next to the tree of a store, out
of parts that they take from below the node; the trees that lie ready are followed edit by edit
until they are put in the place. They stay apart from each other, so that an edit of one of them
leaves the others as they are, and nothing outside of the node changes on the way.
-/

namespace ScriptMin

namespace Store

variable {s s' s'' : Store} {id parent child new anchor target x y : NodeId}
  {ids before behind : List NodeId} {head : Head} {t : Tree} {below : List Tree}
  {ready ready' : List (NodeId × Tree)}

theorem insertIdx_behind (front behind : List NodeId) (anchor child : NodeId) :
    (front ++ anchor :: behind).insertIdx (front.length + 1) child =
      front ++ anchor :: child :: behind := by
  induction front with
  | nil => rfl
  | cons first rest ih => exact congrArg (first :: ·) ih

/-- The position of a node is the number of its siblings before it. -/
theorem Linked.indexOf?_eq (h : s.Linked) (hparent : s.parent? id = some parent)
    (hsplit : s.children parent = before ++ id :: behind) : s.indexOf? id = some before.length := by
  have hnodup := hsplit ▸ h.nodup parent
  have hnot : before.findIdx? (· == id) = none := by
    refine List.findIdx?_eq_none_iff.mpr fun x hx => beq_eq_false_iff_ne.mpr ?_
    rintro rfl
    exact List.disjoint_of_nodup_append hnodup hx List.mem_cons_self
  rw [indexOf?, hparent]
  change (s.children parent).findIdx? _ = _
  rw [hsplit, List.findIdx?_append, hnot, List.findIdx?_cons]
  simp

/-! ### Moving one tree -/

/-- A node has moved below another one, and its head may have changed. -/
structure Moves (s s' : Store) (target child : NodeId) (g : Head → Head) : Prop where
  steady : Steady {x | ¬ s.Within x child} s s'
  off : ¬ s.Within target child
  link : s'.parent? child = some target
  parent?_eq : ∀ x ≠ child, s'.parent? x = s.parent? x
  head_eq : ∀ x ≠ child, s'.head x = s.head x
  children_eq : ∀ x ≠ target, s.parent? child ≠ some x → s'.children x = s.children x
  shows : ∀ {t}, s.Shows child t → s'.Shows child (t.mapHead g)

theorem Forest.moves (h : s.Forest) {f : List NodeId → List NodeId}
    (hf : ∀ ids, (f ids).Perm (child :: ids)) (htarget : target < s.size) (hchild : s.Loose child)
    (hoff : ¬ s.Within target child) (g : Head → Head) :
    Moves s ((s.attach target f child).modifyHead child g) target child g := by
  have hattach : Steady {x | ¬ s.Within x child} s (s.attach target f child) :=
    steady_attach h hf htarget ⟨hchild, fun x hx => hx⟩ hoff
  have hsteady : Steady {x | ¬ s.Within x child} s
      ((s.attach target f child).modifyHead child g) :=
    hattach.trans (steady_modifyHead hattach.forest g)
  have hhead : ∀ x ≠ child,
      ((s.attach target f child).modifyHead child g).head x = s.head x := by
    intro x hx
    rw [head_modifyHead, if_neg fun h => hx h.1, head_attach]
  have hchildren : ∀ x ≠ target, s.parent? child ≠ some x →
      ((s.attach target f child).modifyHead child g).children x = s.children x := by
    intro x hx hlink
    rw [children_modifyHead, children_attach htarget, if_neg hx, children_detach, if_neg hlink]
  refine ⟨hsteady, hoff, ?_, fun x hx => ?_, hhead, hchildren, fun {t} hshows => ?_⟩
  · rw [parent?_modifyHead, parent?_attach hchild.lt, if_pos rfl]
  · rw [parent?_modifyHead, parent?_attach hchild.lt, if_neg hx]
  · have hne : child ≠ target := fun heq => hoff (heq ▸ .refl)
    have hloop : s.parent? child ≠ some child := fun hlink => h.acyclic child child hlink .refl
    rw [Tree.mapHead_eq, Shows, hchildren child hne hloop, head_modifyHead,
      if_pos ⟨rfl, by rw [size_attach]; exact hchild.lt⟩, head_attach, hshows.head_eq]
    refine ⟨rfl, h.showsList_of_off hsteady.forest
      (T := fun x => x = target ∨ x = child ∨ s.parent? child = some x)
      (fun x hx => hhead x fun heq => hx (.inr (.inl heq)))
      (fun x hx => hchildren x (fun heq => hx (.inl heq)) fun hlink => hx (.inr (.inr hlink)))
      (fun d hd => ?_) hshows.children⟩
    have hlink := h.parent?_of_mem hd
    have hback : ¬ s.Within child d := h.acyclic d child hlink
    rintro x (rfl | rfl | hx) hwithin
    · exact hoff (hwithin.trans (within_of_parent hlink))
    · exact hback hwithin
    · exact hback ((within_of_parent hx).trans hwithin)

/-- What neither the target nor the moved node is below shows what it showed. -/
theorem Moves.shows_of_off {g : Head → Head} (h : Moves s s' target child g) (hs : s.Forest)
    (htarget : ¬ s.Within target x) (hchild : ¬ s.Within child x) (hshows : s.Shows x t) :
    s'.Shows x t := by
  refine hs.shows_of_off h.steady.forest
    (T := fun y => y = target ∨ y = child ∨ s.parent? child = some y)
    (fun y hy => h.head_eq y fun heq => hy (.inr (.inl heq)))
    (fun y hy => h.children_eq y (fun heq => hy (.inl heq)) fun hlink => hy (.inr (.inr hlink)))
    ?_ hshows
  rintro y (rfl | rfl | hlink) hwithin
  · exact htarget hwithin
  · exact hchild hwithin
  · exact hchild ((within_of_parent hlink).trans hwithin)

/-! ### Trees that lie ready -/

/-- Trees lie ready for the place of a node below a parent, where by now other nodes stand. -/
structure Prepared (s : Store) (id parent : NodeId) (s' : Store) (ids : List NodeId)
    (ready : List (NodeId × Tree)) : Prop extends Steady {parent} s s' where
  base : s.Forest
  link : s.parent? id = some parent
  head_eq : ∀ x < s.size, ¬ s.Within x id → s'.head x = s.head x
  children_eq : ∀ x < s.size, ¬ s.Within x id → x ≠ parent → s'.children x = s.children x
  parent?_eq : ∀ x < s.size, ¬ s.Within x id → s'.parent? x = s.parent? x
  place : ∀ before behind, s.children parent = before ++ id :: behind →
    s'.children parent = before ++ ids ++ behind
  self : s'.head id = s.head id
  movable : ∀ r ∈ ready, Movable {parent} s' r.1
  own : ∀ r ∈ ready, s.size ≤ r.1 ∨ s.Within r.1 id
  shows : ∀ r ∈ ready, s'.Shows r.1 r.2
  apart : ready.Pairwise fun q r => ¬ s'.Within q.1 r.1 ∧ ¬ s'.Within r.1 q.1

namespace Prepared

/-- Trees below a node lie ready where they are. -/
theorem start (hs : s.Forest) (hlink : s.parent? id = some parent)
    (hbelow : ∀ r ∈ ready, s.Within r.1 id ∧ r.1 ≠ id ∧ s.Shows r.1 r.2)
    (hapart : ready.Pairwise fun q r => ¬ s.Within q.1 r.1 ∧ ¬ s.Within r.1 q.1) :
    Prepared s id parent s [id] ready where
  toSteady := .refl hs
  base := hs
  link := hlink
  head_eq _ _ _ := rfl
  children_eq _ _ _ _ := rfl
  parent?_eq _ _ _ := rfl
  place before behind hsplit := by rw [hsplit, List.append_assoc]; rfl
  self := rfl
  movable r hr := by
    obtain ⟨hwithin, hne, -⟩ := hbelow r hr
    obtain ⟨p, hp, hpid⟩ := hwithin.cases.resolve_left hne
    refine ⟨⟨parent?_lt hp, hs.toLinked.ne_root hp⟩, ?_⟩
    rintro _ rfl hback
    exact hs.acyclic id _ hlink (hback.trans hwithin)
  own r hr := .inr (hbelow r hr).1
  shows r hr := (hbelow r hr).2.2
  apart := hapart

/-- Children of a node lie ready where they are. -/
theorem start_children (hs : s.Forest) (hlink : s.parent? id = some parent) {nodes : List NodeId}
    (hnodes : nodes ⊆ s.children id) (hnodup : nodes.Nodup) :
    Prepared s id parent s [id] (nodes.map fun c => (c, s.view c)) := by
  have hparent : ∀ c ∈ nodes, s.parent? c = some id := fun c hc => hs.parent?_of_mem (hnodes hc)
  refine start hs hlink (List.forall_mem_map.mpr fun c hc => ?_) (List.pairwise_map.mpr ?_)
  · refine ⟨within_of_parent (hparent c hc), ?_, hs.shows_view c⟩
    rintro rfl
    exact hs.acyclic _ _ (hparent _ hc) .refl
  · refine hnodup.imp_of_mem fun hc hd hne => ⟨?_, ?_⟩
    · exact hs.not_within_sibling (hparent _ hc) (hparent _ hd) hne
    · exact hs.not_within_sibling (hparent _ hd) (hparent _ hc) (Ne.symm hne)

/-- A part is taken out of a node. The part and what is left lie ready. -/
theorem start_remove (hs : s.Forest) (hlink : s.parent? id = some parent)
    (hchild : child ∈ s.children id) :
    Prepared s id parent (s.remove child) [id]
      [(id, .node (s.head id) (((s.children id).filter (· ≠ child)).map s.view)),
        (child, (s.view child).inRole none)] := by
  have hclink := hs.parent?_of_mem hchild
  have hbelow := within_of_parent hclink
  have hne : child ≠ id := fun heq => hs.acyclic child id hclink (heq ▸ .refl)
  have hidOff : ¬ s.Within id child := hs.not_within_child hchild
  have hparentOff : ¬ s.Within parent id := hs.acyclic id parent hlink
  have hparentOff' : ¬ s.Within parent child := fun hback => hparentOff (hback.trans hbelow)
  have hsteady : Steady {x | x = parent ∨ x = id} s (s.remove child) := by
    refine steady_remove hs ?_
    rintro x (rfl | rfl)
    · exact hparentOff'
    · exact hidOff
  have hforest := hsteady.forest
  have hdetached : (s.remove child).parent? child = none := by
    rw [remove, parent?_setRole, parent?_detach, if_pos rfl]
  have hhead : ∀ x ≠ child, (s.remove child).head x = s.head x := by
    intro x hx
    rw [remove, setRole, head_modifyHead, if_neg fun h => hx h.1, head_detach]
  have hchildren : ∀ x ≠ id, (s.remove child).children x = s.children x := by
    intro x hx
    rw [remove, setRole, children_modifyHead, children_detach, hclink,
      if_neg fun heq => hx (Option.some_inj.mp heq).symm]
  have hshows : ∀ {x t}, ¬ s.Within child x → ¬ s.Within id x → s.Shows x t →
      (s.remove child).Shows x t := by
    intro x t hx hx' ht
    refine hs.shows_of_off hforest (T := fun y => y = child ∨ y = id)
      (fun y hy => hhead y fun heq => hy (.inl heq))
      (fun y hy => hchildren y fun heq => hy (.inr heq)) ?_ ht
    rintro y (rfl | rfl) hwithin
    · exact hx hwithin
    · exact hx' hwithin
  have hout : ∀ x, ¬ s.Within x id → x ≠ child ∧ x ≠ id := by
    intro x hx
    refine ⟨?_, ?_⟩
    · rintro rfl
      exact hx hbelow
    · rintro rfl
      exact hx .refl
  refine ⟨hsteady.mono (by rintro _ rfl; exact .inl rfl), hs, hlink, ?_, ?_, ?_, ?_, ?_, ?_, ?_,
    ?_, ?_⟩
  · exact fun x _ hx => hhead x (hout x hx).1
  · exact fun x _ hx _ => hchildren x (hout x hx).2
  · intro x _ hx
    rw [remove, parent?_setRole, parent?_detach, if_neg (hout x hx).1]
  · intro before behind hsplit
    rw [hchildren parent (hout parent hparentOff).2, hsplit, List.append_assoc]
    rfl
  · exact hhead id hne.symm
  · simp only [List.forall_mem_cons, List.not_mem_nil, false_implies, implies_true, and_true]
    refine ⟨⟨hsteady.loose ⟨parent?_lt hlink, hs.toLinked.ne_root hlink⟩, ?_⟩,
      ⟨hsteady.loose (hs.toLinked.loose_of_mem hchild), ?_⟩⟩
    all_goals
      rintro x (rfl : x = parent) hwithin
      rw [hsteady.within_iff (.inl rfl)] at hwithin
    · exact hparentOff hwithin
    · exact hparentOff' hwithin
  · simp only [List.forall_mem_cons, List.not_mem_nil, false_implies, implies_true, and_true]
    exact ⟨.inr .refl, .inr hbelow⟩
  · simp only [List.forall_mem_cons, List.not_mem_nil, false_implies, implies_true, and_true]
    constructor
    · rw [Shows, hhead id hne.symm, remove, setRole, children_modifyHead, children_detach,
        if_pos hclink]
      refine ⟨rfl, showsList_iff.mpr (List.forall₂_map_right_iff.mpr ?_)⟩
      refine List.forall₂_same.mpr fun c hc => ?_
      obtain ⟨hc, hc'⟩ := List.mem_filter.mp hc
      have hlink' := hs.parent?_of_mem hc
      have hother : child ≠ c := Ne.symm (of_decide_eq_true hc')
      exact hshows (hs.not_within_sibling hclink hlink' hother) (hs.not_within_child hc)
        (hs.shows_view c)
    · have hsize : child < (s.detach child).size := by rw [size_detach]; exact parent?_lt hclink
      rw [Tree.inRole, Tree.mapHead_eq, Shows, hchildren child hne, remove, setRole,
        head_modifyHead, if_pos ⟨rfl, hsize⟩, head_detach, head_view, hs.children_view]
      refine ⟨rfl, showsList_iff.mpr (List.forall₂_map_right_iff.mpr ?_)⟩
      refine List.forall₂_same.mpr fun c hc => ?_
      have hback := hs.not_within_child hc
      refine hshows hback (fun hid => ?_) (hs.shows_view c)
      exact hidOff (hid.trans (within_of_parent (hs.parent?_of_mem hc)))
  · refine List.pairwise_pair.mpr ⟨?_, not_within_of_parent hdetached hne⟩
    rw [hsteady.within_iff (.inr rfl)]
    exact hidOff

theorem not_within_parent (h : Prepared s id parent s' ids ready) : ¬ s.Within parent id :=
  h.base.acyclic id parent h.link

theorem parent_lt (h : Prepared s id parent s' ids ready) : parent < s.size :=
  h.base.parent_lt h.link

/-- What lies ready is none of the nodes outside. -/
theorem ne_of_outside (h : Prepared s id parent s' ids ready) {r : NodeId × Tree} (hr : r ∈ ready)
    (hx : x < s.size) (hout : ¬ s.Within x id) : x ≠ r.1 := by
  rintro rfl
  rcases h.own r hr with hle | hwithin
  · exact absurd hx (Nat.not_lt.mpr hle)
  · exact hout hwithin

/-- What is ready below a node outside is below the parent. -/
theorem eq_parent_of_outside (h : Prepared s id parent s' ids ready) {r : NodeId × Tree}
    (hr : r ∈ ready) (hx : x < s.size) (hout : ¬ s.Within x id) (hlink : s'.parent? r.1 = some x) :
    x = parent := by
  by_contra hne
  have hmem := (h.forest.linked x r.1).mpr hlink
  rw [h.children_eq x hx hout hne] at hmem
  have hold := h.base.parent?_of_mem hmem
  rcases h.own r hr with hle | hwithin
  · exact absurd (parent?_lt hold) (Nat.not_lt.mpr hle)
  · rcases hwithin.cases with heq | ⟨p, hp, hpid⟩
    · rw [heq, h.link, Option.some_inj] at hold
      exact hne hold.symm
    · rw [hold, Option.some_inj] at hp
      exact hout (hp ▸ hpid)

/-- What is ready but not put in the place is not below the parent. -/
theorem parent?_ne (h : Prepared s id parent s' ids ready) {r : NodeId × Tree} (hr : r ∈ ready)
    (hne : r.1 ≠ id) (hnot : r.1 ∉ ids) : s'.parent? r.1 ≠ some parent := by
  intro hlink
  have hmem := (h.forest.linked parent r.1).mpr hlink
  obtain ⟨before, behind, hsplit⟩ := List.append_of_mem ((h.base.linked parent id).mpr h.link)
  rw [h.place before behind hsplit] at hmem
  have hold : r.1 ∈ s.children parent := by
    rw [hsplit]
    rw [List.mem_append, List.mem_append] at hmem
    rcases hmem with (hmem | hmem) | hmem
    · exact List.mem_append_left _ hmem
    · exact absurd hmem hnot
    · exact List.mem_append_right _ (List.mem_cons_of_mem _ hmem)
  have hparent := h.base.parent?_of_mem hold
  rcases h.own r hr with hle | hwithin
  · exact absurd (parent?_lt hparent) (Nat.not_lt.mpr hle)
  · obtain ⟨p, hp, hpid⟩ := hwithin.cases.resolve_left hne
    rw [hparent, Option.some_inj] at hp
    exact h.not_within_parent (hp ▸ hpid)

/-- What lies ready can be taken in another order, or left. -/
theorem sub (h : Prepared s id parent s' ids ready) (hsub : ready'.Subperm ready) :
    Prepared s id parent s' ids ready' := by
  obtain ⟨l, hperm, hsublist⟩ := hsub
  have hmem : ∀ r ∈ ready', r ∈ ready := fun r hr => hsublist.subset (hperm.mem_iff.mpr hr)
  refine { h with
    movable := fun r hr => h.movable r (hmem r hr)
    own := fun r hr => h.own r (hmem r hr)
    shows := fun r hr => h.shows r (hmem r hr)
    apart := ?_ }
  exact hperm.pairwise (h.apart.sublist hsublist) fun hqr => hqr.symm

/-- An edit that leaves all parents as they are, and the heads and the children of what was there
before, adds a tree to what lies ready. -/
theorem grow (h : Prepared s id parent s' ids ready) (hs : s''.Forest) (hsize : s'.size ≤ s''.size)
    (hroot : s''.root = s'.root) (hnode : ∀ x < s'.size, s''.node x = s'.node x)
    (hnew : s'.size ≤ new) (hlt : new < s''.size) (hparent : s''.parent? new = none)
    (hshows : s''.Shows new t) : Prepared s id parent s'' ids ((new, t) :: ready) := by
  have hhead : ∀ x < s'.size, s''.head x = s'.head x :=
    fun x hx => congrArg Node.head (hnode x hx)
  have hchildren : ∀ x < s'.size, s''.children x = s'.children x :=
    fun x hx => congrArg Node.children (hnode x hx)
  have hlink : ∀ x < s'.size, s''.parent? x = s'.parent? x :=
    fun x hx => congrArg Node.parent (hnode x hx)
  have hline : ∀ {x}, x < s'.size → ∀ z, s'.Within x z → s''.parent? z = s'.parent? z :=
    fun hx z hz => hlink z (h.forest.toLinked.within_lt hx hz)
  have hwithin : ∀ {x}, x < s'.size → ∀ y, s''.Within x y ↔ s'.Within x y :=
    fun hx y => within_congr (hline hx)
  have hold : ∀ x < s.size, x < s'.size := fun x hx => hx.trans_le h.size_le
  have hp := hold parent h.parent_lt
  have hid := hold id (parent?_lt h.link)
  have hsteady : Steady {parent} s' s'' := ⟨hs, hsize, hroot, by rintro _ rfl; exact hline hp⟩
  refine { h with
    toSteady := h.toSteady.trans hsteady
    head_eq := fun x hx hout => (hhead x (hold x hx)).trans (h.head_eq x hx hout)
    children_eq := fun x hx hout hne =>
      (hchildren x (hold x hx)).trans (h.children_eq x hx hout hne)
    parent?_eq := fun x hx hout => (hlink x (hold x hx)).trans (h.parent?_eq x hx hout)
    place := fun before behind hsplit => (hchildren parent hp).trans (h.place before behind hsplit)
    self := (hhead id hid).trans h.self
    movable := List.forall_mem_cons.mpr ⟨?_, fun r hr => (h.movable r hr).of_steady hsteady⟩
    own := List.forall_mem_cons.mpr ⟨.inl (h.size_le.trans hnew), h.own⟩
    shows := List.forall_mem_cons.mpr ⟨hshows, fun r hr => ?_⟩
    apart := List.pairwise_cons.mpr ⟨fun r hr => ?_, h.apart.imp_of_mem fun hq hr hqr => ?_⟩ }
  · refine ⟨⟨hlt, ?_⟩, ?_⟩
    · rw [hroot]
      exact Nat.ne_of_gt (h.forest.root_lt.trans_le hnew)
    · rintro _ rfl hpnew
      rw [hwithin hp] at hpnew
      exact absurd (h.forest.toLinked.within_lt hp hpnew) (Nat.not_lt.mpr hnew)
  · have hr' := (h.movable r hr).lt
    refine (h.shows r hr).congr h.forest.toLinked hs (fun x hx => hhead x ?_)
      fun x hx => hchildren x ?_
    all_goals
      rcases hx.cases with rfl | ⟨p, hp', -⟩
      · exact hr'
      · exact parent?_lt hp'
  · have hr' := (h.movable r hr).lt
    have hne : new ≠ r.1 := Nat.ne_of_gt (hr'.trans_le hnew)
    refine ⟨not_within_of_parent hparent hne, fun hback => ?_⟩
    rw [hwithin hr'] at hback
    exact absurd (h.forest.toLinked.within_lt hr' hback) (Nat.not_lt.mpr hnew)
  · rwa [hwithin (h.movable _ hq).lt, hwithin (h.movable _ hr).lt]

theorem add (h : Prepared s id parent s' ids ready) (hadd : s'.add head = (new, s'')) :
    Prepared s id parent s'' ids ((new, .node head []) :: ready) := by
  obtain rfl : s'.size = new := congrArg Prod.fst hadd
  obtain rfl : (s'.add head).2 = s'' := congrArg Prod.snd hadd
  refine h.grow (h.forest.add head) (by rw [size_add]; exact Nat.le_succ _) rfl (fun x hx => ?_)
    (Nat.le_refl _) (by rw [size_add]; exact Nat.lt_succ_self _) ?_ ?_
  · rw [node_add, if_neg (Nat.ne_of_lt hx)]
  · rw [parent?_add, parent?_of_size_le (Nat.le_refl _)]
  · rw [Shows, head_add, if_pos rfl, children_add, children_of_size_le (Nat.le_refl _)]
    exact ⟨rfl, trivial⟩

theorem new_ne (h : Prepared s id parent s' ids ready) (hadd : s'.add head = (new, s'')) :
    new ≠ id := by
  obtain rfl : s'.size = new := congrArg Prod.fst hadd
  exact Nat.ne_of_gt ((parent?_lt h.link).trans_le h.size_le)

theorem graft (h : Prepared s id parent s' ids ready) (hgraft : s'.graft t = (new, s'')) :
    Prepared s id parent s'' ids ((new, t) :: ready) := by
  obtain ⟨hnew, hgrown, hlt, hparent, hshows⟩ :=
    grown_graft (P := fun _ => True) (fun _ _ _ _ _ => trivial) (t := t) trivial s'
  have hforest := h.forest.graft t
  rw [hgraft] at hnew hgrown hlt hparent hshows
  rw [hgraft] at hforest
  dsimp only at hnew hgrown hlt hparent hshows hforest
  subst hnew
  exact h.grow hforest hgrown.size_le (by rw [root, hgrown.chosenRoot_eq]; rfl) hgrown.node_eq
    (Nat.le_refl _) hlt hparent hshows

/-! ### Putting trees together -/

/-- A tree that lies ready moves below another node. -/
theorem of_moves {g : Head → Head} {ids' : List NodeId}
    (h : Prepared s id parent s' ids ((child, t) :: ready)) (hm : Moves s' s'' target child g)
    (hid : child ≠ id) (htarget : ∀ x < s.size, ¬ s.Within x id → x ≠ parent → x ≠ target)
    (hplace : ∀ before behind, s.children parent = before ++ id :: behind →
      s''.children parent = before ++ ids' ++ behind)
    (hoff : ∀ r ∈ ready, ¬ s'.Within target r.1) :
    Prepared s id parent s'' ids' ((child, t.mapHead g) :: ready) := by
  have hchild : (child, t) ∈ (child, t) :: ready := List.mem_cons_self
  have hapart := List.pairwise_cons.mp h.apart
  have hparent : ¬ s'.Within parent child := (h.movable _ hchild).off _ rfl
  have hsteady : Steady {parent} s' s'' :=
    hm.steady.mono (by rintro _ rfl; exact hparent)
  have hline : ∀ r ∈ ready, ∀ y, s''.Within r.1 y ↔ s'.Within r.1 y :=
    fun r hr y => hm.steady.within_iff (hapart.1 r hr).2
  refine { h with
    toSteady := h.toSteady.trans hsteady
    head_eq := fun x hx hout =>
      (hm.head_eq x (h.ne_of_outside hchild hx hout)).trans (h.head_eq x hx hout)
    children_eq := fun x hx hout hne => ?_
    parent?_eq := fun x hx hout =>
      (hm.parent?_eq x (h.ne_of_outside hchild hx hout)).trans (h.parent?_eq x hx hout)
    place := hplace
    self := (hm.head_eq id hid.symm).trans h.self
    movable := fun r hr => ?_
    own := fun r hr => ?_
    shows := List.forall_mem_cons.mpr ⟨hm.shows (h.shows _ hchild), fun r hr => ?_⟩
    apart := List.pairwise_cons.mpr ⟨fun r hr => ⟨fun hwithin => ?_, ?_⟩, ?_⟩ }
  · rw [hm.children_eq x (htarget x hx hout hne) fun hlink => hne ?_, h.children_eq x hx hout hne]
    exact h.eq_parent_of_outside hchild hx hout hlink
  · rcases List.mem_cons.mp hr with rfl | hr
    · exact (h.movable _ hchild).of_steady hsteady
    · exact (h.movable r (List.mem_cons_of_mem _ hr)).of_steady hsteady
  · rcases List.mem_cons.mp hr with rfl | hr
    · exact h.own (child, t) hchild
    · exact h.own r (List.mem_cons_of_mem _ hr)
  · exact hm.shows_of_off h.forest (hoff r hr) (hapart.1 r hr).1
      (h.shows r (List.mem_cons_of_mem _ hr))
  · -- The new line of the node goes on along the line of the target.
    rcases hwithin.cases with heq | ⟨p, hp, hpr⟩
    · exact (hapart.1 r hr).1 (heq ▸ .refl)
    · rw [hm.link, Option.some_inj] at hp
      subst hp
      exact hoff r hr ((hm.steady.within_iff hm.off).mp hpr)
  · rw [hline r hr]
    exact (hapart.1 r hr).2
  · refine hapart.2.imp_of_mem fun hq hr hqr => ?_
    rwa [hline _ hq, hline _ hr]

/-- One tree becomes the last part of another one, and its head may change. -/
theorem append_modifyHead
    (h : Prepared s id parent s' ids ((new, .node head below) :: (child, t) :: ready))
    (hid : child ≠ id) (hnot : child ∉ ids) (g : Head → Head) :
    Prepared s id parent ((s'.append new child).modifyHead child g) ids
      ((new, .node head (below ++ [t.mapHead g])) :: ready) := by
  have hnew : (new, Tree.node head below) ∈ (new, Tree.node head below) :: (child, t) :: ready :=
    List.mem_cons_self
  have hchild : (child, t) ∈ (new, Tree.node head below) :: (child, t) :: ready :=
    List.mem_cons_of_mem _ List.mem_cons_self
  have hapart := h.apart
  simp only [List.pairwise_cons, List.forall_mem_cons] at hapart
  obtain ⟨⟨hoff, hnewRest⟩, hchildRest, -⟩ := hapart
  have hne : new ≠ child := fun heq => hoff.1 (heq ▸ .refl)
  have hparent : parent ≠ new :=
    h.ne_of_outside hnew h.parent_lt h.not_within_parent
  have hm : Moves s' ((s'.append new child).modifyHead child g) new child g :=
    h.forest.moves (fun ids => List.perm_append_singleton child ids) (h.movable _ hnew).lt
      (h.movable _ hchild).toLoose hoff.1 g
  have hmoved := (h.sub (List.sublist_cons_self _ _).subperm).of_moves hm hid
    (fun x hx hout _ => h.ne_of_outside hnew hx hout)
    (fun before behind hsplit => by
      rw [hm.children_eq parent hparent (h.parent?_ne hchild hid hnot),
        h.place before behind hsplit])
    fun r hr => (hnewRest r hr).1
  have hsteady : Steady {parent} s' ((s'.append new child).modifyHead child g) :=
    hm.steady.mono (by rintro _ rfl; exact (h.movable _ hchild).off _ rfl)
  refine { hmoved with
    movable := List.forall_mem_cons.mpr ⟨(h.movable _ hnew).of_steady hsteady,
      fun r hr => hmoved.movable r (List.mem_cons_of_mem _ hr)⟩
    own := List.forall_mem_cons.mpr ⟨h.own (new, .node head below) hnew,
      fun r hr => hmoved.own r (List.mem_cons_of_mem _ hr)⟩
    shows := List.forall_mem_cons.mpr ⟨?_,
      fun r hr => hmoved.shows r (List.mem_cons_of_mem _ hr)⟩
    apart := List.pairwise_cons.mpr ⟨fun r hr => ?_, (List.pairwise_cons.mp hmoved.apart).2⟩ }
  · have hshows := h.shows _ hnew
    rw [Shows] at hshows
    have hlist : ((s'.append new child).modifyHead child g).children new =
        s'.children new ++ [child] := by
      rw [children_modifyHead, append_eq, children_attach (h.movable _ hnew).lt, if_pos rfl,
        children_detach, if_neg fun hlink => hoff.2 (within_of_parent hlink)]
    rw [Shows, hm.head_eq new hne, hlist, showsList_iff]
    refine ⟨hshows.1, List.rel_append ?_ (.cons (hm.shows (h.shows _ hchild)) .nil)⟩
    -- The parts that are already there are below the new node.
    have hparts := (List.forall₂_and_left (p := (· ∈ s'.children new)) _ _).mpr
      ⟨fun d hd => hd, showsList_iff.mp hshows.2⟩
    refine hparts.imp fun d u hd => hm.shows_of_off h.forest ?_ ?_ hd.2
    · exact h.forest.not_within_child hd.1
    · exact fun hback => hoff.2 (hback.trans (within_of_parent (h.forest.parent?_of_mem hd.1)))
  · rw [hm.steady.within_iff hoff.1, hm.steady.within_iff (hchildRest r hr).2]
    exact hnewRest r hr

/-- One tree becomes the last part of another one, in a role. -/
theorem append_setRole
    (h : Prepared s id parent s' ids ((new, .node head below) :: (child, t) :: ready))
    (hid : child ≠ id) (hnot : child ∉ ids) (role : Option Role) :
    Prepared s id parent ((s'.append new child).setRole child role) ids
      ((new, .node head (below ++ [t.inRole role])) :: ready) :=
  h.append_modifyHead hid hnot _

theorem append
    (h : Prepared s id parent s' ids ((new, .node head below) :: (child, t) :: ready))
    (hid : child ≠ id) (hnot : child ∉ ids) :
    Prepared s id parent (s'.append new child) ids
      ((new, .node head (below ++ [t])) :: ready) := by
  have happend := h.append_modifyHead hid hnot fun h => h
  rwa [modifyHead_self, Tree.mapHead_self] at happend

/-! ### Taking trees apart -/

/-- The parts of a tree lie ready instead of the tree. -/
theorem parts (h : Prepared s id parent s' ids ((x, t) :: ready)) :
    Prepared s id parent s' ids ((s'.children x).map (fun c => (c, s'.view c)) ++ ready) := by
  have hx : (x, t) ∈ (x, t) :: ready := List.mem_cons_self
  have hapart := List.pairwise_cons.mp h.apart
  have hmovable : ∀ c ∈ s'.children x, Movable {parent} s' c :=
    fun c hc => (h.movable _ hx).of_child h.forest hc
  refine { h with
    movable := List.forall_mem_append.mpr ⟨List.forall_mem_map.mpr hmovable, ?_⟩
    own := List.forall_mem_append.mpr ⟨List.forall_mem_map.mpr fun c hc => ?_, ?_⟩
    shows := List.forall_mem_append.mpr
      ⟨List.forall_mem_map.mpr fun c _ => h.forest.shows_view c, ?_⟩
    apart := List.pairwise_append.mpr ⟨?_, hapart.2, ?_⟩ }
  · exact fun r hr => h.movable r (List.mem_cons_of_mem _ hr)
  · by_contra hnot
    rw [not_or, Nat.not_le] at hnot
    -- A part from outside would have been a part of the tree before.
    have hlink := h.forest.parent?_of_mem hc
    rw [h.parent?_eq c hnot.1 hnot.2] at hlink
    rcases h.own _ hx with hle | hwithin
    · exact absurd (h.base.parent_lt hlink) (Nat.not_lt.mpr hle)
    · exact hnot.2 ((within_of_parent hlink).trans hwithin)
  · exact fun r hr => h.own r (List.mem_cons_of_mem _ hr)
  · exact fun r hr => h.shows r (List.mem_cons_of_mem _ hr)
  · rw [List.pairwise_map]
    refine (h.forest.nodup x).imp_of_mem fun {c d} hc hd hne => ?_
    have hclink := h.forest.parent?_of_mem hc
    have hdlink := h.forest.parent?_of_mem hd
    exact ⟨h.forest.not_within_sibling hclink hdlink hne,
      h.forest.not_within_sibling hdlink hclink (Ne.symm hne)⟩
  · intro q hq r hr
    obtain ⟨c, hc, rfl⟩ := List.mem_map.mp hq
    have hbelow := within_of_parent (h.forest.parent?_of_mem hc)
    obtain ⟨hxr, hrx⟩ := hapart.1 r hr
    refine ⟨fun hcr => ?_, fun hrc => hrx (hrc.trans hbelow)⟩
    rcases hcr.total hbelow with hrx' | hxr'
    · exact hrx hrx'
    · exact hxr hxr'

/-- Some parts of a tree lie ready instead of the tree. -/
theorem some_parts (h : Prepared s id parent s' ids ((x, t) :: ready)) (nodes : List NodeId)
    (hnodes : nodes ⊆ s'.children x) (hnodup : nodes.Nodup) :
    Prepared s id parent s' ids (nodes.map (fun c => (c, s'.view c)) ++ ready) := by
  refine h.parts.sub ((List.subperm_append_right ready).mpr ?_)
  obtain ⟨l, hperm, hsublist⟩ := List.subperm_of_subset hnodup hnodes
  exact ⟨_, hperm.map _, hsublist.map _⟩

/-- One part of a tree lies ready instead of the tree. -/
theorem part (h : Prepared s id parent s' ids ((x, t) :: ready)) (hc : child ∈ s'.children x) :
    Prepared s id parent s' ids ((child, s'.view child) :: ready) :=
  h.some_parts [child] (by simpa using hc) (List.nodup_singleton child)

/-! ### Roles -/

theorem setRole (h : Prepared s id parent s' ids ((x, t) :: ready)) (hne : x ≠ id)
    (role : Option Role) :
    Prepared s id parent (s'.setRole x role) ids ((x, t.inRole role) :: ready) := by
  have hx : (x, t) ∈ (x, t) :: ready := List.mem_cons_self
  have hsteady : ∀ S : Set NodeId, Steady S s' (s'.setRole x role) :=
    fun S => steady_setRole h.forest x role
  have hline : ∀ a b, (s'.setRole x role).Within a b ↔ s'.Within a b :=
    fun a b => within_congr fun z _ => parent?_setRole role
  have hhead : ∀ y ≠ x, (s'.setRole x role).head y = s'.head y := by
    intro y hy
    rw [Store.setRole, head_modifyHead, if_neg fun h => hy h.1]
  have hchildren : ∀ y, (s'.setRole x role).children y = s'.children y :=
    fun y => children_modifyHead _
  have hoff : ∀ {y t}, ¬ s'.Within x y → s'.Shows y t → (s'.setRole x role).Shows y t := by
    intro y t hy ht
    refine h.forest.shows_of_off (hsteady ∅).forest (T := fun z => z = x) hhead
      (fun z _ => hchildren z) ?_ ht
    rintro _ rfl
    exact hy
  refine { h with
    toSteady := h.toSteady.trans (hsteady _)
    head_eq := fun y hy hout => (hhead y (h.ne_of_outside hx hy hout)).trans (h.head_eq y hy hout)
    children_eq := fun y hy hout hne => (hchildren y).trans (h.children_eq y hy hout hne)
    parent?_eq := fun y hy hout => (parent?_setRole role).trans (h.parent?_eq y hy hout)
    place := fun before behind hsplit => (hchildren parent).trans (h.place before behind hsplit)
    self := (hhead id hne.symm).trans h.self
    movable := List.forall_mem_cons.mpr ⟨(h.movable _ hx).of_steady (hsteady _),
      fun r hr => (h.movable r (List.mem_cons_of_mem _ hr)).of_steady (hsteady _)⟩
    own := List.forall_mem_cons.mpr ⟨h.own (x, t) hx,
      fun r hr => h.own r (List.mem_cons_of_mem _ hr)⟩
    shows := List.forall_mem_cons.mpr ⟨?_, fun r hr => ?_⟩
    apart := ?_ }
  · have hshows := h.shows _ hx
    rw [Tree.inRole, Tree.mapHead_eq, Shows, Store.setRole, head_modifyHead,
      if_pos ⟨rfl, (h.movable _ hx).lt⟩, hshows.head_eq, children_modifyHead]
    refine ⟨rfl, showsList_iff.mpr ?_⟩
    have hparts := (List.forall₂_and_left (p := (· ∈ s'.children x)) _ _).mpr
      ⟨fun d hd => hd, showsList_iff.mp hshows.children⟩
    exact hparts.imp fun d u hd => hoff (h.forest.not_within_child hd.1) hd.2
  · exact hoff ((List.pairwise_cons.mp h.apart).1 r hr).1 (h.shows r (List.mem_cons_of_mem _ hr))
  · simp only [hline]
    exact (List.pairwise_cons (l := ready) (a := (x, t.inRole role))).mpr
      (List.pairwise_cons.mp h.apart)

/-! ### Putting trees in the place -/

/-- A tree takes the place. -/
theorem replace (h : Prepared s id parent s' [id] ((new, t) :: ready)) (hne : new ≠ id) :
    Puts s (s'.replace id new) id [new] ∧
      (s'.replace id new).Shows new (t.inRole (s.role? id)) := by
  have hnew : (new, t) ∈ (new, t) :: ready := List.mem_cons_self
  have hmovable := h.movable _ hnew
  have hmem : id ∈ s'.children parent := by
    obtain ⟨before, behind, hsplit⟩ := List.append_of_mem ((h.base.linked parent id).mpr h.link)
    rw [h.place before behind hsplit]
    simp
  have hlink := h.forest.parent?_of_mem hmem
  have hoff : ¬ s'.Within id new := by
    intro hback
    rcases hback.cases with heq | ⟨p, hp, hpnew⟩
    · exact hne heq.symm
    · rw [hlink, Option.some_inj] at hp
      exact hmovable.off _ rfl (hp ▸ hpnew)
  have hforeign := h.parent?_ne hnew hne (by simpa using hne)
  have hforest := h.forest.replace hmovable.lt hmovable.ne_root hoff
  have hrole : s'.role? id = s.role? id := congrArg Head.role h.self
  -- The node is detached first and gets the role.
  have hlinkNew : ((s'.detach new).setRole new (s'.role? id)).parent? id = some parent := by
    rw [parent?_setRole, parent?_detach, if_neg hne.symm, hlink]
  have hdetached : s'.replace id new =
      ((s'.detach new).setRole new (s'.role? id)).swap parent id new := by
    rw [replace_eq hne.symm]
    simp only [hlinkNew]
  have hhead : ∀ x ≠ new, (s'.replace id new).head x = s'.head x := by
    intro x hx
    rw [hdetached, head_swap, Store.setRole, head_modifyHead, if_neg fun h => hx h.1, head_detach]
  have hchildrenOf : ∀ x, (s'.replace id new).children x =
      if x = parent then (s'.children x).map fun c => if c = id then new else c
      else if s'.parent? new = some x then (s'.children x).filter (· ≠ new) else s'.children x := by
    intro x
    have hnodup : (((s'.detach new).setRole new (s'.role? id)).children parent).Nodup :=
      (h.forest.toLinked.detach.setRole _).nodup parent
    have hsize : parent < ((s'.detach new).setRole new (s'.role? id)).size := by
      rw [Store.setRole, size_modifyHead, size_detach]
      exact h.forest.parent_lt hlink
    rw [hdetached, children_swap hsize hnodup, Store.setRole, children_modifyHead, children_detach]
    split
    case isTrue heq => rw [heq, if_neg hforeign]
    case isFalse => rfl
  have hchildren : ∀ x, x ≠ parent → s'.parent? new ≠ some x →
      (s'.replace id new).children x = s'.children x := by
    intro x hx hx'
    rw [hchildrenOf, if_neg hx, if_neg hx']
  refine ⟨⟨hforest, ?_, ?_, ?_, ?_⟩, ?_⟩
  · rw [root, root, chosenRoot_replace hlink, ← root, h.root_eq]
    rfl
  · intro x hx hout
    rw [hhead x (h.ne_of_outside hnew hx hout), h.head_eq x hx hout]
  · intro x hx hout hx'
    have hxp : x ≠ parent := by
      rintro rfl
      exact hx' h.link
    rw [hchildren x hxp fun hp => hxp (h.eq_parent_of_outside hnew hx hout hp),
      h.children_eq x hx hout hxp]
  · intro p before behind hsplit
    obtain rfl : parent = p := by
      have hp : s.parent? id = some p := h.base.parent?_of_mem (by rw [hsplit]; simp)
      rw [h.link, Option.some_inj] at hp
      exact hp
    have hnodup : (before ++ id :: behind).Nodup := hsplit ▸ h.base.nodup parent
    have hself : ∀ l : List NodeId, id ∉ l → l.map (fun c => if c = id then new else c) = l := by
      intro l hl
      conv_rhs => rw [← List.map_id l]
      refine List.map_congr_left fun c hc => if_neg ?_
      rintro rfl
      exact hl hc
    have hbefore : id ∉ before := fun hmem =>
      List.disjoint_of_nodup_append hnodup hmem List.mem_cons_self
    have hbehind : id ∉ behind := (List.nodup_cons.mp (List.nodup_append.mp hnodup).2.1).1
    rw [hchildrenOf, if_pos rfl, h.place before behind hsplit]
    simp only [List.map_append, List.map_cons, List.map_nil, hself before hbefore,
      hself behind hbehind, if_true]
  · have hshows := h.shows _ hnew
    have hnewp : new ≠ parent := fun heq => hmovable.off _ rfl (heq ▸ .refl)
    have hloop : s'.parent? new ≠ some new := fun hp => h.forest.acyclic new new hp .refl
    have hsize : new < (s'.detach new).size := by rw [size_detach]; exact hmovable.lt
    have hheadNew : (s'.replace id new).head new = { s'.head new with role := s.role? id } := by
      rw [hdetached, head_swap, Store.setRole, head_modifyHead, if_pos ⟨rfl, hsize⟩, head_detach, hrole]
    rw [Tree.inRole, Tree.mapHead_eq, Shows, hchildren new hnewp hloop, hheadNew, hshows.head_eq]
    refine ⟨rfl, h.forest.showsList_of_off hforest
      (T := fun x => x = parent ∨ x = new ∨ s'.parent? new = some x)
      (fun x hx => hhead x fun heq => hx (.inr (.inl heq)))
      (fun x hx => hchildren x (fun heq => hx (.inl heq)) fun hlink => hx (.inr (.inr hlink)))
      (fun d hd => ?_) hshows.children⟩
    have hdlink := h.forest.parent?_of_mem hd
    have hback : ¬ s'.Within new d := h.forest.acyclic d new hdlink
    rintro x (rfl | rfl | hx) hwithin
    · exact hmovable.off _ rfl (hwithin.trans (within_of_parent hdlink))
    · exact hback hwithin
    · exact hback ((within_of_parent hx).trans hwithin)

/-- Nodes that stand in the place have been put there. -/
theorem puts (h : Prepared s id parent s' ids ready) : Puts s s' id ids where
  forest := h.forest
  root_eq := h.root_eq
  head_eq := h.head_eq
  children_eq x hx hout hne := h.children_eq x hx hout fun heq => hne (heq ▸ h.link)
  place p before behind hsplit := by
    have hp : s.parent? id = some p := h.base.parent?_of_mem (by rw [hsplit]; simp)
    rw [h.link, Option.some_inj] at hp
    subst hp
    exact h.place before behind hsplit

/-- A tree is put behind the last node that stands in the place. -/
theorem insertAfter {front : List NodeId}
    (h : Prepared s id parent s' (front ++ [anchor]) ((child, t) :: ready)) (hid : child ≠ id)
    (hnot : child ∉ front ++ [anchor]) (role : Option Role) :
    Prepared s id parent ((s'.insertAfter anchor child).setRole child role)
      (front ++ [anchor] ++ [child]) ((child, t.inRole role) :: ready) := by
  have hchild : (child, t) ∈ (child, t) :: ready := List.mem_cons_self
  have hmovable := h.movable _ hchild
  have hplace : ∀ before behind, s.children parent = before ++ id :: behind →
      s'.children parent = (before ++ front) ++ anchor :: behind := by
    intro before behind hsplit
    rw [h.place before behind hsplit]
    simp
  obtain ⟨before, behind, hsplit⟩ := List.append_of_mem ((h.base.linked parent id).mpr h.link)
  have hanchor : s'.parent? anchor = some parent :=
    h.forest.parent?_of_mem (by rw [hplace before behind hsplit]; simp)
  have hindex := h.forest.toLinked.indexOf?_eq hanchor (hplace before behind hsplit)
  have hinsert : s'.insertAfter anchor child = s'.attach parent
      (fun ids => ids.insertIdx (min ((before ++ front).length + 1) ids.length) child) child := by
    rw [Store.insertAfter, hanchor, hindex]
    rfl
  have hplt := h.forest.parent_lt hanchor
  rw [hinsert]
  refine h.of_moves (h.forest.moves
    (fun ids => List.perm_insertIdx child ids (Nat.min_le_right _ _)) hplt hmovable.toLoose
    (hmovable.off _ rfl) _) hid (fun x _ _ hne => hne) (fun before' behind' hsplit' => ?_)
    fun r hr => (h.movable r (List.mem_cons_of_mem _ hr)).off _ rfl
  -- The node stands at one position only.
  have hindex' := h.forest.toLinked.indexOf?_eq hanchor (hplace before' behind' hsplit')
  have hlength : (before ++ front).length = (before' ++ front).length :=
    Option.some_inj.mp (hindex.symm.trans hindex')
  have hle : (before' ++ front).length + 1 ≤ ((before' ++ front) ++ anchor :: behind').length := by
    simp only [List.length_append, List.length_cons]
    omega
  rw [Store.setRole, children_modifyHead, children_attach hplt, if_pos rfl, children_detach,
    if_neg (h.parent?_ne hchild hid hnot), hplace before' behind' hsplit', hlength]
  rw [min_eq_left hle, insertIdx_behind]
  simp

end Prepared

end Store

end ScriptMin
