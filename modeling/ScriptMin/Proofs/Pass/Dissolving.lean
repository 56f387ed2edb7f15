import ScriptMin.Proofs.Pass.Assigning

/-!
Lists of declarations that are dissolved. Where a list has been come the assignments of its
declarations, as one expression or statement. Main statement: apart from the list itself, what
happens in a body stays the same, in the same order.
-/

namespace ScriptMin

open Edit

/-- Whether evaluation goes from nodes of the kind on to all children, and what happens there depends
on nothing else. -/
def Kind.goesOn : Kind → Bool
  | .function | .declaration | .assign => false
  | _ => true

namespace Store

variable {s s' s'' : Store} {id x y c d p l a w parent : NodeId} {L : Prop}
  {D A T : NodeId → Prop}
  {ids items : List NodeId} {keep : Event → Bool}

theorem onward_of_goesOn (hkind : (s.kind x).goesOn) : s.onward x = s.children x := by
  rw [onward]
  split
  case h_1 heq => simp [heq, Kind.goesOn] at hkind
  case h_2 heq => simp [heq, Kind.goesOn] at hkind
  case h_3 => rfl

theorem event?_of_goesOn (hkind : (s.kind x).goesOn) : s.event? x =
    some (if s.kind x = .varList then .list x
      else if (s.head x).isExpression then .expression x else .passes x) := by
  rw [event?]
  split
  case h_1 heq => rw [if_pos heq]
  case h_2 heq => simp [heq, Kind.goesOn] at hkind
  case h_3 heq => simp [heq, Kind.goesOn] at hkind
  case h_4 hlist _ _ => rw [if_neg hlist]

/-- Where the children of a node bring what they brought, the node does. -/
theorem Touches.events_of_row (h : Touches L D A s s') (hs : s.Forest) (hs' : s'.Forest)
    (hlt : y < s.size) (hkind : (s.kind y).goesOn)
    (hrow : (s'.children y).flatMap (s'.events keep) = (s.children y).flatMap (s.events keep)) :
    s'.events keep y = s.events keep y := by
  have hkind' : (s'.kind y).goesOn := by rwa [h.kind_eq hlt]
  rw [hs.events_eq, hs'.events_eq, bodyEvents, bodyEvents, onward_of_goesOn hkind,
    onward_of_goesOn hkind', hrow, event?_of_goesOn hkind', h.kind_eq hlt, h.isExpression_eq hlt,
    ← event?_of_goesOn hkind]

/-- Expressions and statements that are not in a store are not kept. -/
def Fresh (s : Store) (keep : Event → Bool) : Prop :=
  ∀ x, s.size ≤ x → keep (.expression x) = false ∧ keep (.passes x) = false

theorem Fresh.mono (h : s.Fresh keep) (hle : s.size ≤ s'.size) : s'.Fresh keep := fun x hx =>
  h x (hle.trans hx)

/-- What happens at a node that is not in a store is not kept, unless it is a list. -/
theorem Fresh.event? (h : s.Fresh keep) (hle : s.size ≤ x) (hgoes : (s'.kind x).goesOn)
    (hlist : s'.kind x ≠ .varList) : (s'.event? x).toList.filter keep = [] := by
  rw [event?_of_goesOn hgoes, if_neg hlist]
  split <;> simp [h x hle]

/-! ### Assignments -/

/-- What an assignment brings is what the declaration brought. -/
theorem Assigns.events_eq (h : Assigns s s' d a) (ht : Touches L D A s s') (hs : s.Forest)
    (hs' : s'.Forest) (hd : s.kind d = .declaration) (hfresh : s.Fresh keep)
    (hparts : ∀ c ∈ s.children d, s'.events keep c = s.events keep c) :
    s'.events keep a = s.events keep d := by
  obtain ⟨target, value, hvalue, hrow, htarget⟩ := h.parts
  have hevent : s'.event? a = some (.assigns (s'.target target) value) := by
    rw [event?, h.kind_eq]
    simp only [h.assignOp_eq, hrow]
  have honward : s'.onward a = [target, value] := by
    rw [onward, h.kind_eq, hrow]
  have hevent' : s.event? d = some (.assigns (s.declaredTarget d) value) := by
    rw [event?, hd]
    simp only [hvalue, Option.map_some]
  have honward' : s.onward d = (s.child? d .names).toList ++ [value] := by
    rw [onward, hd]
    simp only [hvalue]
  have hsame : s'.target target = s.declaredTarget d ∧ s'.events keep target =
      (s.child? d .names).toList.flatMap (s.events keep) := by
    rcases htarget with hnames | ⟨hnames, hle, hkind, htext, hchildren⟩
    · have hmem := mem_of_child? hnames
      rw [declaredTarget, hnames, Option.toList_some, List.flatMap_singleton]
      exact ⟨ht.target_eq (hs.child_lt hmem), hparts target hmem⟩
    · rw [declaredTarget, hnames, Store.target, if_pos hkind, htext]
      refine ⟨rfl, ?_⟩
      have hgoes : (s'.kind target).goesOn := by rw [hkind]; rfl
      rw [hs'.events_eq, bodyEvents, onward_of_goesOn hgoes, hchildren,
        hfresh.event? hle hgoes (by simp [hkind])]
      simp
  rw [hs'.events_eq, hs.events_eq, hevent, hevent', bodyEvents, bodyEvents, honward, honward', hsame.1,
    List.flatMap_append, List.flatMap_cons, hsame.2]
  rw [List.flatMap_singleton, List.flatMap_singleton, hparts value (mem_of_child? hvalue)]

/-- Nothing happens at a declaration without initializer. -/
theorem Forest.events_of_idle (h : s.Forest) (hkind : s.kind d = .declaration)
    (hchild : s.child? d .initializer = none) : s.events keep d = [] := by
  rw [h.events_eq, bodyEvents, onward, event?, hkind]
  simp only [hchild, Option.map_none, Option.toList_none, List.filter_nil, List.flatMap_nil,
    List.append_nil]

/-! ### One expression or statement -/

/-- A new node brings some items in order, and nothing else: it is the only one, their sequence or a
statement of them. -/
inductive Brings (s s' : Store) : NodeId → List NodeId → Prop where
  | item (a : NodeId) : Brings s s' a [a]
  | sequence {w : NodeId} (hle : s.size ≤ w) (hkind : s'.kind w = .comma) :
      Brings s s' w (s'.children w)
  | statement {w x : NodeId} {items : List NodeId} (hle : s.size ≤ w)
      (hkind : s'.kind w = .semicolon) (hrow : s'.children w = [x]) (hbrings : Brings s s' x items) :
      Brings s s' w items
  | nothing {w : NodeId} (hle : s.size ≤ w) (hkind : s'.kind w = .semicolon)
      (hrow : s'.children w = []) : Brings s s' w []

namespace Brings

theorem later (h : Brings s s' w items) (ht : Touches L D A s' s'') (hD : ∀ x, D x → x < s.size) :
    Brings s s'' w items := by
  have hkept : ∀ {w}, s.size ≤ w → s'.kind w ≠ .script →
      s''.kind w = s'.kind w ∧ s''.children w = s'.children w := fun hle hkind =>
    have hlt := lt_of_kind hkind
    ⟨ht.kind_eq hlt, ht.row _ hlt fun hmem => Nat.not_lt_of_le hle (hD _ hmem)⟩
  induction h with
  | item a => exact .item a
  | sequence hle hkind =>
      obtain ⟨hkind', hrow⟩ := hkept hle (by simp [hkind])
      exact hrow ▸ .sequence hle (hkind'.trans hkind)
  | statement hle hkind hrow _ ih =>
      obtain ⟨hkind', hrow'⟩ := hkept hle (by simp [hkind])
      exact .statement hle (hkind'.trans hkind) (hrow'.trans hrow) ih
  | nothing hle hkind hrow =>
      obtain ⟨hkind', hrow'⟩ := hkept hle (by simp [hkind])
      exact .nothing hle (hkind'.trans hkind) (hrow'.trans hrow)

theorem earlier (h : Brings s' s'' w items) (hle : s.size ≤ s'.size) : Brings s s'' w items := by
  induction h with
  | item a => exact .item a
  | sequence hw hkind => exact .sequence (hle.trans hw) hkind
  | statement hw hkind hrow _ ih => exact .statement (hle.trans hw) hkind hrow ih
  | nothing hw hkind hrow => exact .nothing (hle.trans hw) hkind hrow

theorem events_eq (h : Brings s s' w items) (hs' : s'.Forest) (hfresh : s.Fresh keep) :
    s'.events keep w = items.flatMap (s'.events keep) := by
  have hnew : ∀ {w}, s.size ≤ w → s'.kind w = .comma ∨ s'.kind w = .semicolon →
      s'.events keep w = (s'.children w).flatMap (s'.events keep) := by
    intro w hle hkind
    have hgoes : (s'.kind w).goesOn := by rcases hkind with hkind | hkind <;> rw [hkind] <;> rfl
    have hlist : s'.kind w ≠ .varList := by rcases hkind with hkind | hkind <;> simp [hkind]
    rw [hs'.events_eq, bodyEvents, onward_of_goesOn hgoes, hfresh.event? hle hgoes hlist,
      List.nil_append]
  induction h with
  | item a => rw [List.flatMap_singleton]
  | sequence hle hkind => exact hnew hle (.inl hkind)
  | statement hle hkind hrow _ ih => rw [hnew hle (.inr hkind), hrow, List.flatMap_singleton, ih]
  | nothing hle hkind hrow => rw [hnew hle (.inr hkind), hrow, List.flatMap_nil]

end Brings

/-- A node that is neither a declaration nor a list of them has no place and can be put somewhere. -/
structure Detached (s : Store) (x : NodeId) : Prop where
  lt : x < s.size
  ne_root : x ≠ s.root
  parent_eq : s.parent? x = none
  not_list : s.kind x ≠ .varList
  not_declaration : s.kind x ≠ .declaration

theorem Detached.placeable (h : s.Detached x) : s.Placeable x :=
  ⟨h.lt, h.ne_root, h.not_list, h.not_declaration⟩

theorem Placeable.detached (h : s.Placeable x) (hnone : s.parent? x = none) : s.Detached x :=
  ⟨h.lt, h.ne_root, hnone, h.not_list, h.not_declaration⟩

theorem Detached.later (h : s.Detached x) (ht : Touches L D A s s') (hA : ¬ A x) :
    s'.Detached x :=
  (h.placeable.later ht).detached (ht.loose x h.lt hA h.parent_eq)

theorem detached_of_add (h : s.Forest) {head : Head} (hmade : head.kind.isMade)
    (hlist : head.kind ≠ .varList) (hdeclaration : head.kind ≠ .declaration)
    (hadd : s.add head = (w, s')) : s'.Forest ∧ s.size ≤ w ∧ s'.Detached w ∧ s'.kind w = head.kind ∧
      s'.children w = [] ∧ Touches False (fun _ => False) (fun _ => False) s s' := by
  obtain ⟨rfl, h'⟩ := added_of_add h.toLinked hadd
  have hforest : s'.Forest := by
    obtain rfl : (s.add head).2 = s' := congrArg Prod.snd hadd
    exact h.add _
  have hkind' : s'.kind s.size = head.kind := by rw [kind, h'.head_eq, if_pos rfl]
  refine ⟨hforest, Nat.le_refl _, ⟨h'.size_eq ▸ Nat.lt_succ_self _, ?_, ?_, ?_, ?_⟩,
    hkind', ?_, touches_of_add h.toLinked (.inl hmade) hadd⟩
  · rw [h'.root_eq]
    exact Nat.ne_of_gt h.root_lt
  · rw [h'.parent_eq, parent?_of_size_le (Nat.le_refl _)]
  · rwa [hkind']
  · rwa [hkind']
  · rw [h'.children_eq, children_of_size_le (Nat.le_refl _)]

/-- Detached nodes come below another one in order. -/
theorem Forest.foldl_append (h : s.Forest) (hparent : parent < s.size)
    (hloose : s.parent? parent = none) (hids : ∀ x ∈ ids, s.Detached x ∧ x ≠ parent)
    (hnodup : ids.Nodup) :
    (ids.foldl (fun s x => s.append parent x) s).Forest ∧
      Touches False (· = parent) (· ∈ ids) s (ids.foldl (fun s x => s.append parent x) s) ∧
      (ids.foldl (fun s x => s.append parent x) s).children parent = s.children parent ++ ids := by
  induction ids generalizing s with
  | nil => exact ⟨h, .refl _ _ _, (List.append_nil _).symm⟩
  | cons x rest ih =>
      rw [List.forall_mem_cons] at hids
      obtain ⟨⟨hx, hne⟩, hrest⟩ := hids
      rw [List.nodup_cons] at hnodup
      have hgiven := given_append h hparent hx.lt hx.ne_root hx.not_declaration
        (not_within_of_parent hloose hne.symm)
      have hloose' : (s.append parent x).parent? parent = none := by
        rw [hgiven.parent_eq, if_neg hne.symm, hloose]
      obtain ⟨hforest, ht, hrow⟩ := ih hgiven.forest (hgiven.touches.lt hparent) hloose'
        (fun y hy => ⟨(hrest y hy).1.later hgiven.touches (by rintro rfl; exact hnodup.1 hy),
          (hrest y hy).2⟩) hnodup.2
      refine ⟨hforest, (hgiven.touches.trans ht).mono ?_ ?_, ?_⟩
      · rintro y - ((hy | hy) | hy)
        · exact hy
        · rw [hx.parent_eq] at hy
          cases hy
        · exact hy
      · rintro y - - (rfl | hy)
        · exact List.mem_cons_self
        · exact List.mem_cons_of_mem _ hy
      · rw [List.foldl_cons, hrow, hgiven.row_parent (by simp [hx.parent_eq]), List.append_assoc]
        rfl

/-- A list of declarations that is not the collector has a place. -/
structure Standing (s : Store) (collector list p : NodeId) : Prop where
  forest : s.Forest
  collector_kind : s.kind collector = .varList
  list_kind : s.kind list = .varList
  declarations : ∀ d ∈ s.children list, s.kind d = .declaration
  parts : ∀ d ∈ s.children list, ∀ c ∈ s.children d, s.kind c ≠ .varList ∧ s.kind c ≠ .declaration
  ne : list ≠ collector
  link : s.parent? list = some p
  goes : (s.kind p).goesOn
  place : s.kind p ≠ .varList

namespace Standing

variable {collector list : NodeId} (h : Standing s collector list p)
include h

theorem list_lt : list < s.size := parent?_lt h.link

theorem collector_lt : collector < s.size := lt_of_kind (by simp [h.collector_kind])

theorem place_ne : p ≠ collector := fun heq => h.place (heq ▸ h.collector_kind)

theorem place_not_mem : p ∉ s.children list := by
  intro hmem
  have hgoes := h.goes
  rw [h.declarations p hmem] at hgoes
  cases hgoes

/-- Only lists, declarations and the place of the list are touched where the list is dissolved. -/
theorem not_touched (hlist : s.kind x ≠ .varList) (hkind : s.kind x ≠ .declaration) (hp : x ≠ p) :
    ¬ ((x = collector ∨ x ∈ s.children list) ∨ x = list ∨ x = p) := by
  rintro ((hD | hD) | hD | hD)
  exacts [hlist (hD ▸ h.collector_kind), hkind (h.declarations x hD), hlist (hD ▸ h.list_kind), hp hD]

end Standing

end Store

namespace Declarations

open Store

variable {s s' : Store} {collector list p : NodeId} {assigns : List NodeId} {declared : NameSet}

/-- What comes to the place of a list of declarations brings what the list brings, and is in its
role. Everything else at that place stays. -/
structure Supplants (list p : NodeId) (items assigns : List NodeId) (s s' : Store) : Prop where
  row : ∃ before behind, s.children p = before ++ list :: behind ∧
    s'.children p = before ++ items ++ behind
  roles : ∀ c ∈ s.children p, c ≠ list → s'.role? c = s.role? c
  news : ∀ x ∈ items, s.size ≤ x ∧ s'.role? x = s.role? list
  turned : List.Forall₂ (Assigns s s')
    ((s.children list).filter fun d => (s.child? d .initializer).isSome) assigns
  events : ∀ keep, s.Fresh keep → items.flatMap (s'.events keep) = assigns.flatMap (s'.events keep)

/-- What an edit gives that dissolves a list of declarations: its names are collected, and its place
has what brings the assignments of its declarations. -/
structure Dissolves (collector list p : NodeId) (declared declared' : NameSet) (s s' : Store) :
    Prop where
  collects : Collects (fun x => (x = collector ∨ x ∈ s.children list) ∨ x = list ∨ x = p) collector
    ((s.children list).flatMap (namesOf s)) declared declared' s s'
  gone : s'.parent? list = none
  supplants : ∃ items assigns, Supplants list p items assigns s s'

theorem brings_sequence {span : Span} (h : s.Forest) (hassigns : ∀ a ∈ assigns, s.Detached a)
    (hnodup : assigns.Nodup) : Gives (sequence span assigns) s fun result s' =>
      s'.Forest ∧ Touches False (fun _ => False) (· ∈ assigns) s s' ∧ (result = none → assigns = []) ∧
      ∀ e ∈ result, Brings s s' e assigns ∧ s'.Detached e ∧ (e ∈ assigns ∨ s.size ≤ e) := by
  rw [sequence.eq_def]
  split
  case h_1 => exact ⟨h, .refl _ _ _, fun _ => rfl, by simp⟩
  case h_2 assign =>
      refine ⟨h, .refl _ _ _, by simp, ?_⟩
      rintro _ ⟨⟩
      have hmem := List.mem_singleton_self assign
      exact ⟨.item assign, hassigns assign hmem, .inl hmem⟩
  case h_3 =>
      rw [gives_bind, gives_get]
      rcases hadd : s.add { kind := .comma, span } with ⟨comma, s₁⟩
      obtain ⟨h₁, hle, hcomma, hkind, hrow, ht⟩ := detached_of_add h rfl (by simp) (by simp) hadd
      obtain ⟨hforest, ht', hrow'⟩ := h₁.foldl_append hcomma.lt hcomma.parent_eq
        (fun a ha => ⟨(hassigns a ha).later ht not_false,
          Nat.ne_of_lt ((hassigns a ha).lt.trans_le hle)⟩) hnodup
      rw [hrow, List.nil_append] at hrow'
      dsimp only
      rw [gives_bind, gives_set, gives_pure]
      refine ⟨hforest, (ht.trans ht').mono ?_ fun x _ _ hx => hx.resolve_left id, by simp, ?_⟩
      · rintro x hx (hfalse | rfl)
        · exact hfalse
        · exact Nat.not_lt_of_le hle hx
      · rintro _ ⟨⟩
        refine ⟨?_, hcomma.later ht' fun hmem => ?_, .inr hle⟩
        · have hbrings : Brings s _ comma _ := .sequence hle ((ht'.kind_eq hcomma.lt).trans hkind)
          rwa [hrow'] at hbrings
        · exact Nat.not_lt_of_le hle (hassigns comma hmem).lt

section Place

variable {s₁ s₂ : Store} {declared' : NameSet} {e : NodeId}
  (h : s.Standing collector list p)
  (h₁ : TurnsAll collector (s.children list) declared declared' assigns s s₁)
  (ht₂ : Touches False (fun _ => False) (s.size ≤ ·) s₁ s₂)

include h₁ ht₂

theorem touches_of_turns : Touches False (fun x => x = collector ∨ x ∈ s.children list) (fun _ => False)
    s s₂ := by
  refine (h₁.collects.touches.trans ht₂).mono (fun _ _ hx => hx.resolve_right id) ?_
  rintro x hx - (hfalse | hle)
  · exact hfalse
  · exact Nat.not_lt_of_le hle hx

include h

theorem place_of_turns : s₂.children p = s.children p ∧
    ∀ c ∈ s.children p, s₂.role? c = s.role? c := by
  have ht := touches_of_turns h₁ ht₂
  have hp : p < s.size := h.forest.parent_lt h.link
  have hoff : ¬ (p = collector ∨ p ∈ s.children list) := not_or.mpr ⟨h.place_ne, h.place_not_mem⟩
  exact ⟨ht.row p hp hoff, ht.role p hp hoff⟩

/-- The place of the list gets its new children. -/
theorem dissolves_of_place {A : NodeId → Prop} (items : List NodeId)
    (ht : Touches False (fun x => x = list ∨ x = p) A s₂ s') (h' : s'.Forest)
    (hA : ∀ x < s.size, ¬ A x) (hgone : s'.parent? list = none)
    (hrow : ∃ before behind, s₂.children p = before ++ list :: behind ∧
      s'.children p = before ++ items ++ behind)
    (hroles : ∀ c < s.size, c ≠ list → s'.role? c = s₂.role? c)
    (hitems : ∀ x ∈ items, s.size ≤ x ∧ s'.role? x = s₂.role? list)
    (hevents : ∀ keep, s.Fresh keep →
      items.flatMap (s'.events keep) = assigns.flatMap (s'.events keep)) :
    Dissolves collector list p declared declared' s s' := by
  have hbound : ∀ x, x = list ∨ x = p → x < s.size := by
    rintro x (rfl | rfl)
    · exact h.list_lt
    · exact h.forest.parent_lt h.link
  obtain ⟨hsame, hrole⟩ := place_of_turns h h₁ ht₂
  have hmem : list ∈ s.children p := (h.forest.linked _ _).mpr h.link
  have hall : Touches False (fun x => x = list ∨ x = p) (fun x => s.size ≤ x ∨ A x) s₁ s' :=
    (ht₂.trans ht).mono (fun _ _ hx => hx.resolve_left id) fun _ _ _ hx => hx
  refine ⟨h₁.collects.after hall h' ?_ h.collector_lt hbound ?_, hgone, items, assigns, ?_⟩
  · rintro (heq | heq)
    · exact h.ne heq.symm
    · exact h.place_ne heq.symm
  · rintro x hx (hle | hA')
    · exact Nat.not_lt_of_le hle hx
    · exact hA x hx hA'
  · refine ⟨hsame ▸ hrow, fun c hc hne => ?_, fun x hx => ?_, ?_, hevents⟩
    · rw [hroles c (h.forest.child_lt hc) hne, hrole c hc]
    · rw [(hitems x hx).2, hrole list hmem]
      exact ⟨(hitems x hx).1, rfl⟩
    · exact h₁.turned.imp fun d a ha => ha.later hall h₁.collects.forest.toLinked hbound

theorem dissolves_replace (h₂ : s₂.Forest) (h' : (s₂.replace list e).Forest) (he : s₂.Detached e)
    (hle : s.size ≤ e) (hbrings : Brings s s₂ e assigns) :
    Dissolves collector list p declared declared' s (s₂.replace list e) := by
  have hmem : list ∈ s₂.children p := by
    rw [(place_of_turns h h₁ ht₂).1]
    exact (h.forest.linked _ _).mpr h.link
  have hlink := h₂.parent?_of_mem hmem
  have hnew : list ≠ e := fun heq => Nat.not_lt_of_le hle (heq ▸ h.list_lt)
  have ht : Touches False _ _ s₂ _ :=
    touches_replace h₂.toLinked hlink he.lt he.parent_eq he.not_list he.not_declaration
  refine dissolves_of_place h h₁ ht₂ [e]
    (ht.mono (fun x _ hx => .inr hx) fun _ _ _ hx => hx) h' ?_ ?_ ?_ (fun c hc _ => ?_)
    (List.forall_mem_singleton.mpr ⟨hle, ?_⟩) fun keep hfresh => ?_
  · rintro x hx rfl
    exact Nat.not_lt_of_le hle hx
  · rw [parent?_replace hnew he.lt, if_neg hnew, if_pos rfl]
  · obtain ⟨before, behind, hsplit⟩ := List.append_of_mem hmem
    refine ⟨before, behind, hsplit, ?_⟩
    rw [children_replace h₂.toLinked hlink he.parent_eq hnew, if_pos rfl, hsplit,
      map_swap (hsplit ▸ h₂.nodup p), List.append_assoc]
    rfl
  · have hne : c ≠ e := fun heq => Nat.not_lt_of_le hle (heq ▸ hc)
    rw [role?, head_replace hnew he.lt, if_neg hne]
    rfl
  · rw [role?, head_replace hnew he.lt, if_pos rfl]
  · rw [List.flatMap_singleton]
    refine (hbrings.later ht fun x hx => ?_).events_eq h' hfresh
    rw [hx]
    exact h.forest.parent_lt h.link

theorem dissolves_remove (h₂ : s₂.Forest) (hassigns : assigns = []) :
    Dissolves collector list p declared declared' s (s₂.remove list) := by
  have hmem : list ∈ s₂.children p := by
    rw [(place_of_turns h h₁ ht₂).1]
    exact (h.forest.linked _ _).mpr h.link
  have hlink := h₂.parent?_of_mem hmem
  refine dissolves_of_place h h₁ ht₂ []
    ((touches_remove h₂.toLinked).mono ?_ fun _ _ _ hx => hx) h₂.remove (fun _ _ => not_false) ?_ ?_
    (fun c _ hne => role?_remove hne) nofun fun keep _ => by rw [hassigns]
  · rintro x - (hx | ⟨-, hx⟩)
    · rw [hlink, Option.some_inj] at hx
      exact .inr hx.symm
    · exact .inl hx
  · rw [parent?_remove, if_pos rfl]
  · obtain ⟨before, behind, hsplit⟩ := List.append_of_mem hmem
    refine ⟨before, behind, hsplit, ?_⟩
    rw [h₂.toLinked.children_remove, hsplit, filter_ne_append (hsplit ▸ h₂.nodup p), List.append_nil]

end Place

/-- A list of declarations is dissolved into assignments. -/
theorem dissolves_assignList (h : s.Standing collector list p) (hs : s.Sound) :
    Gives (assignList collector declared list) s fun declared' s' =>
      s'.Forest → Dissolves collector list p declared declared' s s' := by
  have hnodup := h.forest.nodup list
  rw [assignList, gives_bind, gives_get]
  dsimp only
  rw [gives_bind, gives_get, gives_bind]
  refine (turnsAll_toAssignments h.forest hs h.collector_kind h.declarations h.parts hnodup).mono ?_
  rintro ⟨declared', assigns⟩ s₁ h₁
  have hassigns : ∀ a ∈ assigns, s₁.Detached a := by
    intro a ha
    obtain ⟨hle, hparent, hlt⟩ := h₁.detached a ha
    obtain ⟨d, hd⟩ := h₁.exists_assigns ha
    refine ⟨hlt, ?_, hparent, by simp [hd.kind_eq], by simp [hd.kind_eq]⟩
    rw [h₁.collects.touches.root_eq]
    exact Nat.ne_of_gt (h.forest.root_lt.trans_le hle)
  dsimp only
  rw [gives_bind]
  refine (brings_sequence h₁.collects.forest hassigns h₁.nodup).mono ?_
  rintro result s₂ ⟨h₂, ht, hnone, hsome⟩
  have hle₁ := h₁.collects.touches.size_le
  have ht₂ : Touches False (fun _ => False) (s.size ≤ ·) s₁ s₂ :=
    ht.mono (fun _ _ hx => hx) fun x _ _ hx => (h₁.detached x hx).1
  rw [gives_bind, gives_get]
  split
  case h_1 expression =>
      obtain ⟨hbrings, hexpression, hplace⟩ := hsome expression rfl
      have hle : s.size ≤ expression :=
        hplace.elim (fun hmem => (h₁.detached _ hmem).1) hle₁.trans
      have hbrings := hbrings.earlier hle₁
      split
      · rw [gives_bind, gives_set, gives_pure]
        exact fun h' => dissolves_replace h h₁ ht₂ h₂ h' hexpression hle hbrings
      · rcases hadd : s₂.add { kind := .semicolon, span := s.span list } with ⟨statement, s₃⟩
        obtain ⟨h₃, hle₃, hstatement, hkind, hrow, hadded⟩ :=
          detached_of_add h₂ rfl (by simp) (by simp) hadd
        have hne : statement ≠ expression :=
          fun heq => Nat.not_lt_of_le hle₃ (heq ▸ hexpression.lt)
        have hexpression₃ := hexpression.later hadded not_false
        have hgiven := hexpression₃.placeable.given h₃ hstatement.lt
          (not_within_of_parent hstatement.parent_eq hne) (some .expression)
        dsimp only
        rw [gives_bind, gives_set, gives_pure, appendAs]
        have hall : Touches False (fun _ => False) (· = expression) s₂ _ :=
          (hadded.trans hgiven.touches).mono (fun x hx hD => ?_) fun x _ _ hx => hx.resolve_left id
        · refine fun h' => dissolves_replace h h₁ ((ht₂.trans hall).mono (by simp) ?_) hgiven.forest
            h' ?_ ((hle.trans_lt hexpression.lt).le.trans hle₃) ?_
          · rintro x - - (hx | rfl)
            · exact hx
            · exact hle
          · exact hstatement.later hgiven.touches hne
          · have hbrings₃ := hbrings.later hall (by simp)
            refine .statement ((hle.trans_lt hexpression.lt).le.trans hle₃) ?_ ?_ hbrings₃
            · rw [hgiven.touches.kind_eq hstatement.lt, hkind]
            · rw [hgiven.row_parent (by simp [hexpression₃.parent_eq]), hrow]
              rfl
        · rcases hD with hD | rfl | hD
          · exact hD
          · exact Nat.not_lt_of_le hle₃ hx
          · rw [hexpression₃.parent_eq] at hD
            cases hD
  case h_2 =>
      have hnil := hnone rfl
      rw [gives_bind, gives_set, gives_pure]
      split
      · exact fun _ => dissolves_remove h h₁ ht₂ h₂ hnil
      · rw [removeStatement]
        split
        · exact fun _ => dissolves_remove h h₁ ht₂ h₂ hnil
        · rcases hadd : s₂.add { kind := .semicolon, span := s₂.span list } with ⟨empty, s₃⟩
          obtain ⟨h₃, hle₃, hempty, hkind, hrow, hadded⟩ :=
            detached_of_add h₂ rfl (by simp) (by simp) hadd
          have hle := hle₁.trans (ht₂.size_le.trans hle₃)
          refine fun h' => dissolves_replace h h₁ ((ht₂.trans hadded).mono (by simp) (by simp)) h₃
            h' hempty hle ?_
          rw [hnil]
          exact .nothing hle hkind hrow

end Declarations

end ScriptMin
