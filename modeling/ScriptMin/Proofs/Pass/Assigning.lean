import Mathlib.Data.List.Forall2
import ScriptMin.Proofs.Pass.Touching

/-!
Lists of declarations that give way to assignments. The names of the declarations are collected in
another list, and what they are initialized with becomes the right side of assignments, which come
to the place of the list in order.
-/

namespace ScriptMin

open Edit

namespace Store

variable {s s' s'' : Store} {id x y c d p l a parent child : NodeId} {L : Prop}
  {D A : NodeId → Prop}
  {name : String} {names names' : List String} {declared declared' declared'' : NameSet}

/-! ### Names of patterns -/

theorem bindings_name (hkind : s.kind id = .identifier) : s.bindings id = [id] := by
  rw [bindings, bindingsFrom, hkind]

theorem kind_of_mem_bindingsFrom {fuel : Nat} (hx : x ∈ s.bindingsFrom fuel id) :
    s.kind x = .identifier := by
  induction fuel generalizing id with
  | zero => cases hx
  | succ fuel ih =>
      rw [bindingsFrom] at hx
      split at hx
      case h_1 hkind => rwa [List.mem_singleton.mp hx]
      case h_2 =>
          obtain ⟨c, -, hx⟩ := List.mem_flatMap.mp hx
          exact ih hx
      case h_3 =>
          obtain ⟨property, -, hx⟩ := List.mem_flatMap.mp hx
          split at hx
          · exact ih hx
          · cases hx
      case h_4 => cases hx

theorem bindings_hole (hkind : s.kind id = .hole) : s.bindings id = [] := by
  rw [bindings, bindingsFrom, hkind]

namespace Forest

variable (h : s.Forest)
include h

/-- A search for names that goes as far as lines go finds all there are. -/
theorem bindingsFrom_eq {fuel fuel' : Nat} (hfuel : s.size ≤ s.lineLength id + fuel)
    (hfuel' : s.size ≤ s.lineLength id + fuel') :
    s.bindingsFrom (fuel + 1) id = s.bindingsFrom (fuel' + 1) id := by
  have hend : ∀ {fuel id}, s.size ≤ s.lineLength id → s.bindingsFrom (fuel + 1) id =
      if s.kind id = .identifier then [id] else [] := by
    intro fuel id hline
    rw [bindingsFrom, h.children_eq_nil hline]
    cases s.kind id <;> rfl
  induction fuel generalizing id fuel' with
  | zero => rw [hend hfuel, hend hfuel]
  | succ fuel ih =>
      cases fuel' with
      | zero => rw [hend hfuel', hend hfuel']
      | succ fuel' =>
          have hchild : ∀ {c q}, c ∈ s.children q → s.lineLength q < s.lineLength c := fun hc =>
            h.lineLength_lt (h.parent?_of_mem hc)
          have harray : (s.children id).flatMap (s.bindingsFrom (fuel + 1)) =
              (s.children id).flatMap (s.bindingsFrom (fuel' + 1)) := by
            refine List.flatMap_congr fun c hc => ?_
            have := hchild hc
            exact ih (by omega) (by omega)
          rw [bindingsFrom, bindingsFrom, harray]
          split
          case h_3 =>
              refine List.flatMap_congr fun property hproperty => ?_
              split
              case h_1 value hvalue =>
                  have hline := hchild hproperty
                  have hline' := hchild (mem_of_nth? hvalue)
                  exact ih (by omega) (by omega)
              case h_2 => rfl
          all_goals rfl

theorem bindings_array (hkind : s.kind id = .arrayInit) :
    s.bindings id = (s.children id).flatMap s.bindings := by
  cases hsize : s.size with
  | zero => rw [bindings, bindingsFrom, hkind, children_of_size_le (hsize ▸ Nat.zero_le id)]; rfl
  | succ n =>
      rw [bindings, hsize, bindingsFrom, hkind]
      refine List.flatMap_congr fun c hc => ?_
      have := h.lineLength_lt (h.parent?_of_mem hc)
      exact h.bindingsFrom_eq (by omega) (Nat.le_add_left _ _)

theorem bindings_object (hkind : s.kind id = .objectInit) : s.bindings id =
    (s.children id).flatMap fun property => (s.nth? property 1).toList.flatMap s.bindings := by
  cases hsize : s.size with
  | zero => rw [bindings, bindingsFrom, hkind, children_of_size_le (hsize ▸ Nat.zero_le id)]; rfl
  | succ n =>
      rw [bindings, hsize, bindingsFrom, hkind]
      refine List.flatMap_congr fun property hproperty => ?_
      cases hvalue : s.nth? property 1 with
      | none => rfl
      | some value =>
          have hline := h.lineLength_lt (h.parent?_of_mem hproperty)
          have hline' := h.lineLength_lt (h.parent?_of_mem (mem_of_nth? hvalue))
          rw [Option.toList_some, List.flatMap_singleton]
          exact h.bindingsFrom_eq (by omega) (Nat.le_add_left _ _)

end Forest

theorem IsPattern.kind_ne_function (h : s.IsPattern p) : s.kind p ≠ .function := by
  cases h with
  | leaf hkind => rcases hkind with hkind | hkind <;> simp [hkind]
  | array hkind => simp [hkind]
  | object hkind => simp [hkind]

namespace Touches

variable (h : Touches L D A s s') (hs : s.Forest) (hs' : s'.Forest)
include h hs hs'

/-- An edit that does not touch a pattern leaves what it binds. -/
theorem bindings_eq (hpattern : s.IsPattern p) (hlt : p < s.size)
    (hoff : ∀ x, x = p ∨ s.Inside p x → (s.kind x).inPattern → ¬ D x) :
    s'.bindings p = s.bindings p := by
  have hbelow : ∀ {p c}, c ∈ s.children p → s.kind c ≠ .function →
      (∀ x, x = p ∨ s.Inside p x → (s.kind x).inPattern → ¬ D x) →
      ∀ x, x = c ∨ s.Inside c x → (s.kind x).inPattern → ¬ D x := by
    intro p c hc hkind hoff x hx
    refine hoff x (.inr ?_)
    rcases hx with rfl | hx
    · exact .child hc
    · exact (Inside.child hc).trans hkind hx
  induction hpattern with
  | leaf hkind =>
      rcases hkind with hkind | hkind
      · rw [bindings_name hkind, bindings_name ((h.kind_eq hlt).trans hkind)]
      · rw [bindings_hole hkind, bindings_hole ((h.kind_eq hlt).trans hkind)]
  | array hkind hpatterns ih =>
      rw [hs.bindings_array hkind, hs'.bindings_array ((h.kind_eq hlt).trans hkind),
        h.row _ hlt (hoff _ (.inl rfl) (by rw [hkind]; rfl))]
      exact List.flatMap_congr fun c hc =>
        ih c hc (hs.child_lt hc) (hbelow hc (hpatterns c hc).kind_ne_function hoff)
  | object hkind hfields hpatterns ih =>
      rw [hs.bindings_object hkind, hs'.bindings_object ((h.kind_eq hlt).trans hkind),
        h.row _ hlt (hoff _ (.inl rfl) (by rw [hkind]; rfl))]
      refine List.flatMap_congr fun property hproperty => ?_
      have hfield := hfields property hproperty
      rw [nth?, nth?, h.row _ (hs.child_lt hproperty) (hoff _ (.inr (.child hproperty))
        (by rw [hfield]; rfl))]
      refine List.flatMap_congr fun value hvalue => ?_
      have hvalue' := Option.mem_toList.mp hvalue
      have hmem := List.mem_of_getElem? hvalue'
      exact ih property hproperty value hvalue' (hs.child_lt hmem)
        (hbelow hmem (hpatterns property hproperty value hvalue').kind_ne_function
          (hbelow hproperty (by simp [hfield]) hoff))

theorem namesOf_eq (hsound : s.Sound) (hkind : s.kind d = .declaration) (hd : ¬ D d)
    (hoff : ∀ x, s.Inside d x → (s.kind x).inPattern → ¬ D x) :
    Declarations.namesOf s' d = Declarations.namesOf s d := by
  have hlt : d < s.size := lt_of_kind (by simp [hkind])
  rw [Declarations.namesOf, Declarations.namesOf, h.child?_eq hlt hd, h.text_eq hlt]
  split
  case h_1 pattern hnames =>
      have hmem := mem_of_child? hnames
      have hpattern : s.IsPattern pattern := by
        refine (hsound.formed d).patterns pattern hmem ?_
        rw [Head.binds, show (s.head d).kind = .declaration from hkind]
        exact beq_iff_eq.mpr (role?_of_child? hnames)
      rw [h.bindings_eq hs hs' hpattern (hs.child_lt hmem) fun x hx => hoff x ?_]
      · refine List.map_congr_left fun x hx => h.text_eq (lt_of_kind ?_)
        rw [kind_of_mem_bindingsFrom hx]
        simp
      · rcases hx with rfl | hx
        · exact .child hmem
        · exact (Inside.child hmem).trans hpattern.kind_ne_function hx
  case h_2 => rfl

end Touches

/-! ### Collected names -/

/-- A declaration is new and has neither a pattern nor an initializer. -/
structure Blank (s s' : Store) (d : NodeId) : Prop where
  size_le : s.size ≤ d
  kind_eq : s'.kind d = .declaration
  children_eq : s'.children d = []

/-- A new declaration stays what it is where only older nodes are touched. -/
theorem Blank.later (h : Blank s s' d) (ht : Touches L D A s' s'') (hD : ∀ x, D x → x < s.size) :
    Blank s s'' d ∧ s''.text? d = s'.text? d := by
  have hlt : d < s'.size := lt_of_kind (by simp [h.kind_eq])
  refine ⟨⟨h.size_le, (ht.kind_eq hlt).trans h.kind_eq, ?_⟩, ht.text?_eq hlt⟩
  rw [ht.row d hlt fun hd => Nat.not_lt_of_le h.size_le (hD d hd), h.children_eq]

theorem Blank.namesOf_eq (h : Blank s s' d) {name : String} (htext : s'.text? d = some name) :
    Declarations.namesOf s' d = [name] := by
  have hnone : s'.child? d .names = none := by
    rw [child?, h.children_eq]
    rfl
  rw [Declarations.namesOf, hnone]
  dsimp only
  rw [show s'.text d = (s'.text? d).getD "" from rfl, htext]
  rfl

theorem Blank.earlier (h : Blank s' s'' d) (hle : s.size ≤ s'.size) : Blank s s'' d :=
  ⟨hle.trans h.size_le, h.kind_eq, h.children_eq⟩

/-- A list of declarations grows by declarations of names that are not declared. -/
structure Collects (D : NodeId → Prop) (l : NodeId) (names : List String)
    (declared declared' : NameSet) (s s' : Store) : Prop where
  forest : s'.Forest
  touches : Touches False D (fun _ => False) s s'
  row : ∃ news, s'.children l = s.children l ++ news ∧
    (∀ d ∈ news, Blank s s' d ∧ ∃ x ∈ names, s'.text? d = some x) ∧
    ∀ x ∈ names, x ∈ declared ∨ ∃ d ∈ news, s'.text? d = some x
  declared : ∀ x, x ∈ declared' ↔ x ∈ declared ∨ x ∈ names

namespace Collects

theorem refl (h : s.Forest) : Collects (fun _ => False) l [] declared declared s s :=
  ⟨h, .refl _ _ _, ⟨[], by simp⟩, by simp⟩

/-- What does not touch the list leaves what has been collected. -/
theorem after {D' A' : NodeId → Prop} (h : Collects D l names declared declared' s s')
    (h' : Touches False D' A' s' s'') (hs'' : s''.Forest) (hl : ¬ D' l) (hlt : l < s.size)
    (hD' : ∀ x, D' x → x < s.size) (hA' : ∀ x < s.size, ¬ A' x) :
    Collects (fun x => D x ∨ D' x) l names declared declared' s s'' where
  forest := hs''
  touches := (h.touches.trans h').mono (fun _ _ hx => hx) fun x hx _ hmem =>
    hmem.elim id (hA' x hx)
  row := by
    obtain ⟨news, hrow, hnews, hnames⟩ := h.row
    refine ⟨news, by rw [h'.row l (h.touches.lt hlt) hl, hrow], fun d hd => ?_, fun x hx => ?_⟩
    · obtain ⟨hblank, x, hx, htext⟩ := hnews d hd
      exact ⟨(hblank.later h' hD').1, x, hx, (hblank.later h' hD').2.trans htext⟩
    · refine (hnames x hx).imp_right fun ⟨d, hd, htext⟩ => ⟨d, hd, ?_⟩
      exact ((hnews d hd).1.later h' hD').2.trans htext
  declared := h.declared

theorem trans {D' : NodeId → Prop} (h : Collects D l names declared declared' s s')
    (h' : Collects D' l names' declared' declared'' s' s'') (hD' : ∀ x, D' x → x < s.size) :
    Collects (fun x => D x ∨ D' x) l (names ++ names') declared declared'' s s'' where
  forest := h'.forest
  touches := (h.touches.trans h'.touches).mono (fun _ _ hx => hx) (by simp)
  row := by
    obtain ⟨news, hrow, hnews, hnames⟩ := h.row
    obtain ⟨news', hrow', hnews', hnames'⟩ := h'.row
    have hkept : ∀ d ∈ news, s''.text? d = s'.text? d := fun d hd =>
      ((hnews d hd).1.later h'.touches hD').2
    have hold : ∀ x ∈ names, x ∈ declared ∨ ∃ d ∈ news ++ news', s''.text? d = some x := fun x hx =>
      (hnames x hx).imp_right fun ⟨d, hd, htext⟩ =>
        ⟨d, List.mem_append_left _ hd, (hkept d hd).trans htext⟩
    refine ⟨news ++ news', by rw [hrow', hrow, List.append_assoc], fun d hd => ?_, fun x hx => ?_⟩
    · rcases List.mem_append.mp hd with hd | hd
      · obtain ⟨hblank, x, hx, htext⟩ := hnews d hd
        exact ⟨(hblank.later h'.touches hD').1, x, List.mem_append_left _ hx,
          (hkept d hd).trans htext⟩
      · obtain ⟨hblank, x, hx, htext⟩ := hnews' d hd
        exact ⟨hblank.earlier h.touches.size_le, x, List.mem_append_right _ hx, htext⟩
    · rcases List.mem_append.mp hx with hx | hx
      · exact hold x hx
      · rcases hnames' x hx with hdeclared | ⟨d, hd, htext⟩
        · rcases (h.declared x).mp hdeclared with hdeclared | hx
          · exact .inl hdeclared
          · exact hold x hx
        · exact .inr ⟨d, List.mem_append_right _ hd, htext⟩
  declared x := by rw [h'.declared, h.declared, List.mem_append, or_assoc]

theorem mono {D' : NodeId → Prop} (h : Collects D l names declared declared' s s')
    (hD : ∀ x < s.size, D x → D' x) : Collects D' l names declared declared' s s' :=
  { h with touches := h.touches.mono hD fun _ _ _ hx => hx }

end Collects

end Store

namespace Declarations

open Store

variable {s s' : Store} {collector declaration list : NodeId} {declared : NameSet}

theorem collects_collect (h : s.Forest) (hlist : s.kind collector = .varList) (name : String) :
    Gives (collect collector declared name) s fun declared' s' =>
      Collects (· = collector) collector [name] declared declared' s s' := by
  have hlt : collector < s.size := lt_of_kind (by simp [hlist])
  rw [collect]
  refine gives_ite (fun hdeclared => ?_) fun hdeclared => ?_
  · have hmem : name ∈ declared := by simpa using hdeclared
    have hcollects : Collects (· = collector) collector [name] declared declared s s := by
      refine ⟨h, .refl _ _ _, ⟨[], by simp [hmem]⟩, fun x => ?_⟩
      rw [List.mem_singleton, or_iff_left_of_imp]
      rintro rfl
      exact hmem
    exact hcollects
  · rw [gives_bind, gives_get]
    rcases hadd : s.add
      { kind := .declaration, span := s.span collector, payload := .text name } with ⟨new, s₁⟩
    obtain ⟨rfl, h₁⟩ := added_of_add h.toLinked hadd
    have hforest : s₁.Forest := by
      obtain rfl : (s.add _).2 = s₁ := congrArg Prod.snd hadd
      exact h.add _
    have hlt₁ : collector < s₁.size := h₁.size_eq ▸ Nat.lt_succ_of_lt hlt
    have hnew : s.size < s₁.size := h₁.size_eq ▸ Nat.lt_succ_self _
    have hempty : s₁.children s.size = [] := by
      rw [h₁.children_eq, children_of_size_le (Nat.le_refl _)]
    have hnone : s₁.parent? s.size = none := by
      rw [h₁.parent_eq, parent?_of_size_le (Nat.le_refl _)]
    have hne : collector ≠ s.size := Nat.ne_of_lt hlt
    have hrow : ∀ x, (s₁.append collector s.size).children x =
        if x = collector then s.children x ++ [s.size] else s.children x := by
      intro x
      rw [append_eq, children_attach hlt₁, detach_of_none hnone, h₁.children_eq]
    have hhead : (s₁.append collector s.size).head s.size =
        { kind := .declaration, span := s.span collector, payload := .text name } := by
      rw [append_eq, head_attach, h₁.head_eq, if_pos rfl]
    have ht₁ : Touches False _ _ s s₁ := touches_of_add h.toLinked (.inl rfl) hadd
    have hlisted : s₁.kind s.size = .declaration → s₁.kind collector = .varList := fun _ => by
      rw [ht₁.kind_eq hlt, hlist]
    rw [gives_bind, gives_set, gives_pure]
    refine ⟨?_, ?_, ⟨[s.size], ?_, ?_, ?_⟩, fun x => ?_⟩
    · rw [append_eq]
      refine hforest.attach (fun ids => List.perm_append_singleton _ ids) hlt₁ hnew ?_ ?_
      · rw [h₁.root_eq]
        exact Nat.ne_of_gt h.root_lt
      · exact hforest.not_within hempty hne
    · refine (ht₁.trans (touches_append hlt₁ hnew hlisted)).mono ?_ ?_
      · rintro x - (hx | hx | hx)
        · exact hx.elim
        · exact hx
        · rw [hnone] at hx
          cases hx
      · rintro x hx - (hnot | rfl)
        · exact hnot
        · exact Nat.lt_irrefl _ hx
    · rw [hrow, if_pos rfl]
    · refine List.forall_mem_singleton.mpr
        ⟨⟨Nat.le_refl _, ?_, ?_⟩, name, List.mem_singleton_self _, ?_⟩
      · rw [kind, hhead]
      · rw [hrow, if_neg hne.symm, children_of_size_le (Nat.le_refl _)]
      · rw [text?, hhead]
        rfl
    · refine List.forall_mem_singleton.mpr (.inr ⟨s.size, List.mem_singleton_self _, ?_⟩)
      rw [text?, hhead]
      rfl
    · rw [NameSet.mem_insert, List.mem_singleton, or_comm]

theorem collects_collectAll {names : List String} (h : s.Forest)
    (hlist : s.kind collector = .varList) :
    Gives (collectAll collector names declared) s fun declared' s' =>
      Collects (· = collector) collector names declared declared' s s' := by
  induction names generalizing s declared with
  | nil =>
      have hcollects : Collects (· = collector) collector [] declared declared s s :=
        (Collects.refl h).mono fun _ _ hx => hx.elim
      exact hcollects
  | cons name rest ih =>
      rw [collectAll, gives_bind]
      have hlt : collector < s.size := lt_of_kind (by simp [hlist])
      refine (collects_collect h hlist name).mono fun declared₁ s₁ h₁ => ?_
      refine (ih h₁.forest ((h₁.touches.kind_eq hlt).trans hlist)).mono fun declared₂ s₂ h₂ => ?_
      exact (h₁.trans h₂ fun x hx => hx ▸ hlt).mono fun x _ hx => hx.elim id id

end Declarations

/-! ### Assignments -/

namespace Store

/-- An assignment does what a declaration did: it assigns the initializer to the pattern, or to a
reference to the name. -/
structure Assigns (s s' : Store) (d a : NodeId) : Prop where
  size_le : s.size ≤ a
  kind_eq : s'.kind a = .assign
  assignOp_eq : (s'.head a).assignOp = none
  parts : ∃ target value, s.child? d .initializer = some value ∧ s'.children a = [target, value] ∧
    (s.child? d .names = some target ∨ s.child? d .names = none ∧ s.size ≤ target ∧
      s'.kind target = .identifier ∧ s'.text target = s.text d ∧ s'.children target = [])

/-- A node becomes the last child of another one, in no role. -/
structure Given (parent child : NodeId) (s s' : Store) : Prop where
  forest : s'.Forest
  touches : Touches False (fun x => x = parent ∨ s.parent? child = some x) (· = child) s s'
  row : ∀ x, s'.children x =
    if x = parent then (s.detach child).children x ++ [child] else (s.detach child).children x
  parent_eq : ∀ x, s'.parent? x = if x = child then some parent else s.parent? x

theorem given_append (h : s.Forest) (hparent : parent < s.size) (hchild : child < s.size)
    (hroot : child ≠ s.root) (hkind : s.kind child ≠ .declaration)
    (hoff : ¬ s.Within parent child) : Given parent child s (s.append parent child) where
  forest := h.attach (fun ids => List.perm_append_singleton child ids) hparent hchild hroot hoff
  touches := touches_append hparent hchild fun heq => absurd heq hkind
  row x := by rw [append_eq, children_attach hparent]
  parent_eq x := parent?_append hchild

theorem Given.setRole (h : Given parent child s s') (hkind : s'.kind child ≠ .varList)
    (role : Option Role) : Given parent child s (s'.setRole child role) := by
  refine ⟨h.forest.setRole role, ?_, fun x => ?_, fun x => ?_⟩
  · refine (h.touches.trans (touches_setRole h.forest.toLinked child role)).mono ?_ (by simp)
    rintro x - (hx | hx | hx)
    · exact hx
    · rw [h.parent_eq, if_pos rfl, Option.some_inj] at hx
      exact .inl hx.symm
    · exact absurd hx.1 hkind
  · rw [Store.setRole, children_modifyHead, h.row]
  · rw [parent?_setRole, h.parent_eq]

theorem Given.row_parent (h : Given parent child s s') (hchild : s.parent? child ≠ some parent) :
    s'.children parent = s.children parent ++ [child] := by
  rw [h.row, if_pos rfl, children_detach, if_neg hchild]

/-- A node that can be put into an expression or a statement. -/
structure Placeable (s : Store) (x : NodeId) : Prop where
  lt : x < s.size
  ne_root : x ≠ s.root
  not_list : s.kind x ≠ .varList
  not_declaration : s.kind x ≠ .declaration

theorem Placeable.later {L : Prop} {D A : NodeId → Prop} (h : s.Placeable child)
    (ht : Touches L D A s s') : s'.Placeable child := by
  have hkind := ht.kind_eq h.lt
  refine ⟨ht.lt h.lt, ?_, hkind.trans_ne h.not_list, hkind.trans_ne h.not_declaration⟩
  rw [ht.root_eq]
  exact h.ne_root

theorem Placeable.given (h : s.Placeable child) (hs : s.Forest) (hparent : parent < s.size)
    (hoff : ¬ s.Within parent child) (role : Option Role) :
    Given parent child s ((s.append parent child).setRole child role) := by
  have hgiven := given_append hs hparent h.lt h.ne_root h.not_declaration hoff
  exact hgiven.setRole ((hgiven.touches.kind_eq h.lt).trans_ne h.not_list) role

/-- Two nodes become the sides of a new assignment. -/
structure Sides (left right assign : NodeId) (s s' : Store) : Prop where
  forest : s'.Forest
  touches : Touches False (fun x => s.parent? left = some x ∨ s.parent? right = some x)
    (fun x => x = left ∨ x = right) s s'
  size_le : s.size ≤ assign
  lt : assign < s'.size
  row : s'.children assign = [left, right]
  loose : s'.parent? assign = none
  kind_eq : s'.kind assign = .assign
  assignOp_eq : (s'.head assign).assignOp = none

theorem sides_of_add {left right assign : NodeId} {s₁ : Store} {span : Span} (h : s.Forest)
    (hleft : s.Placeable left) (hright : s.Placeable right) (hne : right ≠ left)
    (hadd : s.add { kind := .assign, span } = (assign, s₁)) :
    Sides left right assign s ((((s₁.append assign left).setRole left none).append assign
      right).setRole right none) := by
  have hf₁ : s₁.Forest := by
    obtain rfl : (s.add _).2 = s₁ := congrArg Prod.snd hadd
    exact h.add _
  have ht₁ : Touches False _ _ s s₁ := touches_of_add h.toLinked (.inl rfl) hadd
  obtain ⟨rfl, h₁⟩ := added_of_add h.toLinked hadd
  have hlt : s.size < s₁.size := h₁.size_eq ▸ Nat.lt_succ_self _
  have hnone : s₁.parent? s.size = none := by
    rw [h₁.parent_eq, parent?_of_size_le (Nat.le_refl _)]
  have h₂ := (hleft.later ht₁).given hf₁ hlt (not_within_of_parent hnone (Nat.ne_of_gt hleft.lt))
    none
  generalize (s₁.append s.size left).setRole left none = s₂ at h₂ ⊢
  have hnone₂ : s₂.parent? s.size = none := by
    rw [h₂.parent_eq, if_neg (Nat.ne_of_gt hleft.lt), hnone]
  have hright₂ : s₂.parent? right = s.parent? right := by
    rw [h₂.parent_eq, if_neg hne, h₁.parent_eq]
  have h₃ := ((hright.later ht₁).later h₂.touches).given h₂.forest (h₂.touches.lt hlt)
    (not_within_of_parent hnone₂ (Nat.ne_of_gt hright.lt)) none
  generalize (s₂.append s.size right).setRole right none = s₃ at h₃ ⊢
  have hold : ∀ x, s.parent? x ≠ some s.size := fun x hx => Nat.lt_irrefl _ (h.parent_lt hx)
  have hhead : (s₃.head s.size).bare = { kind := .assign, span } := by
    rw [h₃.touches.bare_eq _ (h₂.touches.lt hlt), h₂.touches.bare_eq _ hlt, h₁.head_eq, if_pos rfl]
    rfl
  refine ⟨h₃.forest, ?_, Nat.le_refl _, h₃.touches.lt (h₂.touches.lt hlt), ?_, ?_,
    congrArg Head.kind hhead, congrArg Head.assignOp hhead⟩
  · refine ((ht₁.trans h₂.touches).trans h₃.touches).mono ?_ ?_
    · rintro x hx ((hx' | rfl | hx') | rfl | hx')
      · exact hx'.elim
      · exact absurd hx (Nat.lt_irrefl _)
      · rw [h₁.parent_eq] at hx'
        exact .inl hx'
      · exact absurd hx (Nat.lt_irrefl _)
      · exact .inr (hright₂ ▸ hx')
    · rintro x - - ((hx' | rfl) | rfl)
      · exact hx'.elim
      · exact .inl rfl
      · exact .inr rfl
  · rw [h₃.row_parent (hright₂ ▸ hold right), h₂.row_parent (h₁.parent_eq left ▸ hold left),
      h₁.children_eq, children_of_size_le (Nat.le_refl _)]
    rfl
  · rw [h₃.parent_eq, if_neg (Nat.ne_of_gt hright.lt), hnone₂]

end Store

namespace Declarations

open Store

variable {s s' : Store} {collector declaration list : NodeId} {declared : NameSet}

/-- What an edit gives that makes an assignment of a declaration. -/
structure Turns (collector declaration : NodeId) (declared declared' : NameSet)
    (result : Option NodeId) (s s' : Store) : Prop where
  collects : Collects (fun x => x = collector ∨ x = declaration) collector (namesOf s declaration)
    declared declared' s s'
  assigns : ∀ assign ∈ result, Assigns s s' declaration assign ∧ s'.parent? assign = none ∧
    assign < s'.size
  initializer : result = none → s.child? declaration .initializer = none

/-- What an assignment is to assign to is the pattern of the declaration or a new name. -/
theorem gives_target_cases (h : s.Forest) :
    Gives (target declaration) s fun target s' => s'.Forest ∧
      Touches False (fun _ => False) (fun _ => False) s s' ∧ (∀ x, s'.children x = s.children x) ∧
      (∀ x, s'.parent? x = s.parent? x) ∧ target < s'.size ∧
      (s.child? declaration .names = some target ∨ s.child? declaration .names = none ∧
        s.size = target ∧ s'.kind target = .identifier ∧ s'.text target = s.text declaration) := by
  rw [target, gives_bind, gives_get]
  split
  case h_1 pattern hpattern =>
      exact ⟨h, .refl _ _ _, fun _ => rfl, fun _ => rfl, h.child_lt (mem_of_child? hpattern),
        .inl hpattern⟩
  case h_2 hnone =>
      rcases hadd : s.add
        { kind := .identifier, span := s.span declaration, payload := .text (s.text declaration) }
        with ⟨name, s₁⟩
      obtain ⟨rfl, h₁⟩ := added_of_add h.toLinked hadd
      have hforest : s₁.Forest := by
        obtain rfl : (s.add _).2 = s₁ := congrArg Prod.snd hadd
        exact h.add _
      have hhead : s₁.head s.size =
          { kind := .identifier, span := s.span declaration,
            payload := .text (s.text declaration) } := by
        rw [h₁.head_eq, if_pos rfl]
      rw [gives_bind, gives_set, gives_pure]
      refine ⟨hforest, touches_of_add h.toLinked (.inl rfl) hadd, h₁.children_eq, h₁.parent_eq,
        h₁.size_eq ▸ Nat.lt_succ_self _, .inr ⟨hnone, rfl, ?_, ?_⟩⟩
      · rw [kind, hhead]
      · rw [text, hhead]
        rfl

theorem turns_toAssignment (h : s.Forest) (hcollector : s.kind collector = .varList)
    (hdeclaration : s.kind declaration = .declaration)
    (hparts : ∀ c ∈ s.children declaration, s.kind c ≠ .varList ∧ s.kind c ≠ .declaration) :
    Gives (toAssignment collector declaration declared) s fun result s' =>
      Turns collector declaration declared result.1 result.2 s s' := by
  have hlt : collector < s.size := lt_of_kind (by simp [hcollector])
  have hltd : declaration < s.size := lt_of_kind (by simp [hdeclaration])
  have hne : declaration ≠ collector := by
    rintro rfl
    rw [hcollector] at hdeclaration
    cases hdeclaration
  rw [toAssignment, gives_bind, gives_get, gives_bind]
  refine (collects_collectAll h hcollector).mono fun declared' s₁ h₁ => ?_
  have hsame : ∀ role, s₁.child? declaration role = s.child? declaration role := fun role =>
    h₁.touches.child?_eq hltd hne role
  rw [gives_bind]
  refine (gives_target_cases h₁.forest).mono ?_
  rintro target s₂ ⟨hf₂, ht₂, hrow₂, hparent₂, htarget, hcases⟩
  have hchild₂ : s₂.child? declaration .initializer = s.child? declaration .initializer := by
    rw [ht₂.child?_eq (h₁.touches.lt hltd) (by simp), hsame]
  rw [gives_bind, gives_get]
  split
  case h_1 hnone =>
      refine ⟨(h₁.after ht₂ hf₂ not_false hlt (by simp) fun _ _ => not_false).mono fun x _ hx =>
        hx.imp_right False.elim, by simp, fun _ => ?_⟩
      rw [← hchild₂, hnone]
  case h_2 value hvalue =>
      rcases hadd : s₂.add { kind := .assign, span := s₂.span declaration } with ⟨assign, s₃⟩
      have hmem := mem_of_child? hvalue
      have hvaluelink : s₂.parent? value = some declaration := hf₂.parent?_of_mem hmem
      have hpart : ∀ {x}, s₂.parent? x = some declaration → s₂.Placeable x := by
        intro x hx
        have hchild := (h₁.forest.linked _ _).mpr ((hparent₂ x).symm.trans hx)
        rw [h₁.touches.row _ hltd hne] at hchild
        have hltx := h.child_lt hchild
        have hkind := (ht₂.kind_eq (h₁.touches.lt hltx)).trans (h₁.touches.kind_eq hltx)
        exact ⟨ht₂.lt (h₁.touches.lt hltx), hf₂.ne_root hx, hkind.trans_ne (hparts x hchild).1,
          hkind.trans_ne (hparts x hchild).2⟩
      -- The target is a pattern that has its place in the declaration, or new.
      have htargetlink : s₂.parent? target = some declaration ∨
          s₁.size ≤ target ∧ s₂.parent? target = none := by
        rcases hcases with hnames | ⟨-, heq, -⟩
        · exact .inl ((hparent₂ target).trans (h₁.forest.parent?_of_mem (mem_of_child? hnames)))
        · exact .inr ⟨heq.le, (hparent₂ target).trans (parent?_of_size_le heq.le)⟩
      have htargetside : s₂.Placeable target := by
        rcases hcases with hnames | ⟨-, heq, hkind, -⟩
        · exact hpart ((hparent₂ target).trans (h₁.forest.parent?_of_mem (mem_of_child? hnames)))
        · refine ⟨htarget, ?_, by simp [hkind], by simp [hkind]⟩
          rw [ht₂.root_eq]
          exact Nat.ne_of_gt (h₁.forest.root_lt.trans_le heq.le)
      have hne' : value ≠ target := by
        rintro rfl
        rcases hcases with hnames | ⟨-, heq, -⟩
        · rw [← hsame] at hchild₂
          have hrole := role?_of_child? hnames
          rw [role?_of_child? (hchild₂ ▸ hvalue)] at hrole
          cases hrole
        · have hltv := h₁.forest.child_lt (by rwa [← hrow₂])
          exact Nat.lt_irrefl _ (heq ▸ hltv)
      have hsides := sides_of_add hf₂ htargetside (hpart hvaluelink) hne' hadd
      dsimp only
      rw [gives_bind, gives_set, gives_pure]
      generalize (((s₃.append assign target).setRole target none).append assign value).setRole
        value none = s₄ at hsides ⊢
      have hall : Touches False (· = declaration) (fun _ => False) s₁ s₄ := by
        refine (ht₂.trans hsides.touches).mono ?_ ?_
        · rintro x - (hx | hx | hx)
          · exact hx.elim
          · rcases htargetlink with hlink | ⟨-, hnone⟩
            · exact (Option.some_inj.mp (hlink.symm.trans hx)).symm
            · rw [hnone] at hx
              cases hx
          · exact (Option.some_inj.mp (hvaluelink.symm.trans hx)).symm
        · rintro x hx hnone (hx' | rfl | rfl)
          · exact hx'
          · rw [hparent₂, hnone] at htargetlink
            exact (htargetlink.resolve_left (by simp)).1.not_gt hx
          · rw [hparent₂, hnone] at hvaluelink
            cases hvaluelink
      refine ⟨h₁.after hall hsides.forest hne.symm hlt (fun x hx => hx ▸ hltd)
        fun _ _ => not_false, ?_, by simp⟩
      rintro _ ⟨⟩
      refine ⟨⟨(h₁.touches.size_le.trans ht₂.size_le).trans hsides.size_le, hsides.kind_eq,
        hsides.assignOp_eq, target, value, ?_, hsides.row, ?_⟩, hsides.loose, hsides.lt⟩
      · rw [← hchild₂, hvalue]
      rcases hcases with hnames | ⟨hnames, heq, hkind, htext⟩
      · exact .inl ((hsame .names).symm.trans hnames)
      have hle : s.size ≤ target := h₁.touches.size_le.trans heq.le
      refine .inr ⟨(hsame .names).symm.trans hnames, hle, ?_, ?_, ?_⟩
      · rw [hsides.touches.kind_eq htarget, hkind]
      · rw [hsides.touches.text_eq htarget, htext, h₁.touches.text_eq hltd]
      · rw [hsides.touches.row target htarget, hrow₂, children_of_size_le heq.le]
        rintro (hlink | hlink)
        · rw [(htargetlink.resolve_left ?_).2] at hlink
          · cases hlink
          · rw [hlink]
            exact fun h => Nat.not_lt_of_le hle (Option.some_inj.mp h ▸ hltd)
        · rw [hvaluelink] at hlink
          exact Nat.not_lt_of_le hle (Option.some_inj.mp hlink ▸ hltd)

end Declarations

namespace Store.Assigns

variable {s₀ s s' s'' : Store} {d a : NodeId} {L : Prop} {D A : NodeId → Prop}

/-- An assignment stays what it is where only older nodes are touched. -/
theorem later (h : Assigns s s' d a) (ht : Touches L D A s' s'') (hs' : s'.Linked)
    (hD : ∀ x, D x → x < s.size) : Assigns s s'' d a := by
  have hkept : ∀ {x}, s.size ≤ x → ¬ D x := fun hx hmem => Nat.not_lt_of_le hx (hD _ hmem)
  obtain ⟨target, value, hvalue, hrow, htarget⟩ := h.parts
  have hlt : a < s'.size := lt_of_kind (by simp [h.kind_eq])
  refine ⟨h.size_le, (ht.kind_eq hlt).trans h.kind_eq, ?_, target, value, hvalue, ?_, ?_⟩
  · exact (congrArg Head.assignOp (ht.bare_eq a hlt)).trans h.assignOp_eq
  · rw [ht.row a hlt (hkept h.size_le), hrow]
  · refine htarget.imp_right fun ⟨hnames, hle, hkind, htext, hchildren⟩ => ?_
    have htlt : target < s'.size := hs'.child_lt (show target ∈ s'.children a by simp [hrow])
    exact ⟨hnames, hle, (ht.kind_eq htlt).trans hkind, (ht.text_eq htlt).trans htext,
      (ht.row target htlt (hkept hle)).trans hchildren⟩

/-- A declaration that has not been touched before has been what it is. -/
theorem earlier (h : Assigns s s' d a) (ht : Touches L D A s₀ s) (hd : d < s₀.size) (hD : ¬ D d) :
    Assigns s₀ s' d a := by
  obtain ⟨target, value, hvalue, hrow, htarget⟩ := h.parts
  rw [ht.child?_eq hd hD] at hvalue
  rw [ht.child?_eq hd hD, ht.text_eq hd] at htarget
  refine ⟨ht.size_le.trans h.size_le, h.kind_eq, h.assignOp_eq, target, value, hvalue, hrow, ?_⟩
  exact htarget.imp_right fun ⟨hnames, hle, hrest⟩ => ⟨hnames, ht.size_le.trans hle, hrest⟩

end Store.Assigns

namespace Declarations

open Store

variable {s s' : Store} {collector list : NodeId} {declarations : List NodeId} {declared : NameSet}

/-- What an edit gives that makes assignments of declarations. -/
structure TurnsAll (collector : NodeId) (declarations : List NodeId) (declared declared' : NameSet)
    (assigns : List NodeId) (s s' : Store) : Prop where
  collects : Collects (fun x => x = collector ∨ x ∈ declarations) collector
    (declarations.flatMap (namesOf s)) declared declared' s s'
  turned : List.Forall₂ (Assigns s s')
    (declarations.filter fun d => (s.child? d .initializer).isSome) assigns
  detached : ∀ assign ∈ assigns, s.size ≤ assign ∧ s'.parent? assign = none ∧ assign < s'.size
  nodup : assigns.Nodup

theorem TurnsAll.exists_assigns {declared' : NameSet} {assigns : List NodeId} {a : NodeId}
    (h : TurnsAll collector declarations declared declared' assigns s s') (ha : a ∈ assigns) :
    ∃ d, Assigns s s' d a := by
  obtain ⟨i, hi, rfl⟩ := List.getElem_of_mem ha
  exact ⟨_, h.turned.get (h.turned.length_eq ▸ hi) hi⟩

/-- The first declaration becomes an assignment, and then the others do. -/
theorem TurnsAll.cons {s₁ : Store} {d : NodeId} {declared₁ declared₂ : NameSet}
    {assign : Option NodeId} {assigns : List NodeId}
    (h : s.Forest) (hs : s.Sound) (hcollector : s.kind collector = .varList)
    (hdeclarations : ∀ x ∈ d :: declarations, s.kind x = .declaration)
    (hnodup : (d :: declarations).Nodup) (h₁ : Turns collector d declared declared₁ assign s s₁)
    (h₂ : TurnsAll collector declarations declared₁ declared₂ assigns s₁ s') :
    TurnsAll collector (d :: declarations) declared declared₂ (assign.toList ++ assigns) s s' := by
  rw [List.forall_mem_cons] at hdeclarations
  rw [List.nodup_cons] at hnodup
  have hlt : collector < s.size := lt_of_kind (by simp [hcollector])
  have hltd : ∀ x ∈ declarations, x < s.size := fun x hx =>
    lt_of_kind (by simp [hdeclarations.2 x hx])
  have hoff : ∀ x ∈ declarations, ¬ (x = collector ∨ x = d) := by
    rintro x hx (rfl | rfl)
    · have hkind := hdeclarations.2 _ hx
      rw [hcollector] at hkind
      cases hkind
    · exact hnodup.1 hx
  have hpattern : ∀ x, x = collector ∨ x = d → (s.kind x).inPattern = false := by
    rintro x (rfl | rfl)
    · rw [hcollector]; rfl
    · rw [hdeclarations.1]; rfl
  have hbound : ∀ x, x = collector ∨ x ∈ declarations → x < s.size := by
    rintro x (rfl | hx)
    · exact hlt
    · exact hltd x hx
  have hnames : declarations.flatMap (namesOf s₁) = declarations.flatMap (namesOf s) :=
    List.flatMap_congr fun x hx => h₁.collects.touches.namesOf_eq h h₁.collects.forest hs
      (hdeclarations.2 x hx) (hoff x hx) fun y _ hkind hD => by simp [hpattern y hD] at hkind
  have hinitialized : (declarations.filter fun x => (s₁.child? x .initializer).isSome) =
      declarations.filter fun x => (s.child? x .initializer).isSome :=
    List.filter_congr fun x hx => by
      rw [h₁.collects.touches.child?_eq (hltd x hx) (hoff x hx)]
  have hturned : List.Forall₂ (Assigns s s')
      (declarations.filter fun x => (s.child? x .initializer).isSome) assigns := by
    rw [← hinitialized]
    have hmem : ∀ x ∈ declarations.filter fun x => (s₁.child? x .initializer).isSome,
        x ∈ declarations := fun x hx => List.mem_of_mem_filter hx
    refine ((List.forall₂_and_left _ _).mpr ⟨hmem, h₂.turned⟩).imp fun x a ⟨hx, ha⟩ => ?_
    exact ha.earlier h₁.collects.touches (hltd x hx) (hoff x hx)
  have hcollects : Collects (fun x => x = collector ∨ x ∈ d :: declarations) collector
      ((d :: declarations).flatMap (namesOf s)) declared declared₂ s s' := by
    rw [List.flatMap_cons, ← hnames]
    refine (h₁.collects.trans h₂.collects hbound).mono ?_
    rintro x - ((rfl | rfl) | rfl | hx)
    · exact .inl rfl
    · exact .inr List.mem_cons_self
    · exact .inl rfl
    · exact .inr (List.mem_cons_of_mem _ hx)
  refine ⟨hcollects, ?_, fun a ha => ?_, ?_⟩
  · rw [List.filter_cons]
    cases assign with
    | none => rwa [if_neg (by simp [h₁.initializer rfl])]
    | some a =>
        obtain ⟨hassign, -⟩ := h₁.assigns a rfl
        obtain ⟨target, value, hvalue, -⟩ := hassign.parts
        rw [if_pos (by simp [hvalue])]
        exact .cons (hassign.later h₂.collects.touches h₁.collects.forest.toLinked hbound) hturned
  · rcases List.mem_append.mp ha with ha | ha
    · obtain ⟨hassign, hnone, hlta⟩ := h₁.assigns a (Option.mem_toList.mp ha)
      exact ⟨hassign.size_le, h₂.collects.touches.loose a hlta not_false hnone,
        h₂.collects.touches.lt hlta⟩
    · obtain ⟨hle, hdetached⟩ := h₂.detached a ha
      exact ⟨h₁.collects.touches.size_le.trans hle, hdetached⟩
  · refine List.nodup_append.mpr ⟨?_, h₂.nodup, fun a ha b hb heq => ?_⟩
    · cases assign <;> simp
    · obtain ⟨-, -, hlta⟩ := h₁.assigns a (Option.mem_toList.mp ha)
      exact Nat.not_lt_of_le (h₂.detached b hb).1 (heq ▸ hlta)

theorem turnsAll_toAssignments (h : s.Forest) (hs : s.Sound)
    (hcollector : s.kind collector = .varList)
    (hdeclarations : ∀ d ∈ declarations, s.kind d = .declaration)
    (hparts : ∀ d ∈ declarations, ∀ c ∈ s.children d,
      s.kind c ≠ .varList ∧ s.kind c ≠ .declaration)
    (hnodup : declarations.Nodup) :
    Gives (toAssignments collector declarations declared) s fun result s' =>
      TurnsAll collector declarations declared result.1 result.2 s s' := by
  induction declarations generalizing s declared with
  | nil => exact ⟨(Collects.refl h).mono fun _ _ hx => hx.elim, .nil, nofun, .nil⟩
  | cons d rest ih =>
      have hall := hdeclarations
      rw [List.forall_mem_cons] at hdeclarations hparts
      have hnodup' := List.nodup_cons.mp hnodup
      have hltd : ∀ x ∈ rest, x < s.size := fun x hx => lt_of_kind (by simp [hdeclarations.2 x hx])
      have hoff : ∀ x ∈ rest, ¬ (x = collector ∨ x = d) := by
        rintro x hx (rfl | rfl)
        · have hkind := hdeclarations.2 _ hx
          rw [hcollector] at hkind
          cases hkind
        · exact hnodup'.1 hx
      rw [toAssignments, gives_bind]
      refine ((turns_toAssignment h hcollector hdeclarations.1 hparts.1).and
        (evolves_toAssignment hs hcollector)).mono ?_
      rintro ⟨declared₁, assign⟩ s₁ ⟨h₁, hevolves, -⟩
      have ht := h₁.collects.touches
      rw [gives_bind]
      refine (ih h₁.collects.forest hevolves.sound ?_ (fun x hx => ?_) (fun x hx c hc => ?_)
        hnodup'.2).mono fun result s₂ h₂ => TurnsAll.cons h hs hcollector hall hnodup h₁ h₂
      · rw [ht.kind_eq (lt_of_kind (by simp [hcollector])), hcollector]
      · rw [ht.kind_eq (hltd x hx), hdeclarations.2 x hx]
      · rw [ht.row x (hltd x hx) (hoff x hx)] at hc
        rw [ht.kind_eq (h.child_lt hc)]
        exact hparts.2 x hx c hc

end Declarations

end ScriptMin
